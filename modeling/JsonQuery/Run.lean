/-
Outcomes of evaluations.

An evaluation gives a result or fails, and remembers the offset of the last function call that
it made, which is told when the evaluation needs more pending steps than there may be.

* `Run.bind` — one evaluation after the other; the last call of both is that of the second, or
  that of the first if the second makes none;
* `Run.outcome_bind` — the outcome does not depend on the calls remembered.
-/
import JsonQuery.Equality
import JsonQuery.Error
import JsonQuery.Host

namespace JsonQuery

/-- What goes wrong in a function of the embedding program. -/
inductive HostFailure where
  /-- An error that the function raises itself, by the name of its class. -/
  | raised (className : String) (message : Text)
  | conversion (e : ConversionError)
  | notImplemented
  /-- An operand of a type that an operation does not take. -/
  | unsupportedOperand (typeName : String)
  /-- An argument that the call did not give. -/
  | missingArgument

/-- The failure in words. -/
def HostFailure.message : HostFailure → Text
  | .raised _ message => message
  | .conversion e => e.message
  | .notImplemented => []
  | .unsupportedOperand typeName =>
    "unsupported operand type(s) for *: '" ++ typeName ++ "' and 'int'"
  | .missingArgument => "list index out of range"

/-- Why an evaluation has no result. -/
inductive Failure where
  | problem (p : EvalProblem) (offset : Int)
  /-- A sum became too large on the way. -/
  | sumOverflow
  /-- More steps are pending than there may be. -/
  | exhausted
  /-- The query has no expression. -/
  | noExpression
  | host (f : HostFailure)

/-- What an evaluation gives, and the offset of the last call in it. -/
structure Run (α : Type) where
  outcome : Except Failure α
  lastCall : Option Int

namespace Run
variable {α β : Type}

/-- An evaluation that only gives a result. -/
def pure (a : α) : Run α :=
  ⟨.ok a, none⟩

/-- An evaluation that fails. -/
def fail (f : Failure) : Run α :=
  ⟨.error f, none⟩

/-- One evaluation after the other. -/
def bind (x : Run α) (f : α → Run β) : Run β :=
  match x.outcome with
  | .ok a => ⟨(f a).outcome, (f a).lastCall <|> x.lastCall⟩
  | .error e => ⟨.error e, x.lastCall⟩

instance : Monad Run where
  pure := Run.pure
  bind := Run.bind

/-- An evaluation that a function call at an offset comes before. -/
def afterCall (offset : Int) (x : Run α) : Run α :=
  ⟨x.outcome, x.lastCall <|> some offset⟩

/-- A result or a failure as an evaluation. -/
def ofExcept {ε : Type} (failure : ε → Failure) : Except ε α → Run α
  | .ok a => Run.pure a
  | .error e => fail (failure e)

/-- Whether two values are equal, unless the stack does not suffice to find it out. -/
def equal (shared : Sharing) (x y : Value) : Run Bool :=
  match Value.equal? shared x y with
  | some b => Run.pure b
  | none => fail .exhausted

@[simp] theorem outcome_pure (a : α) : (Pure.pure a : Run α).outcome = .ok a := rfl

@[simp] theorem outcome_fail (f : Failure) : (fail f : Run α).outcome = .error f := rfl

@[simp] theorem outcome_bind (x : Run α) (f : α → Run β) :
    (x >>= f).outcome = x.outcome >>= fun a => (f a).outcome := by
  change (Run.bind x f).outcome = _
  rw [Run.bind]
  cases h : x.outcome <;> rfl

@[simp] theorem outcome_afterCall (offset : Int) (x : Run α) :
    (x.afterCall offset).outcome = x.outcome := rfl

end Run
end JsonQuery
