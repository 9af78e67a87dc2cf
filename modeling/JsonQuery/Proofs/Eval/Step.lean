/-
Evaluations in step.

Two evaluations are in step if they make the same last call and end with related results or with the
very same failure.  One that stops early for an excused reason is in step with all.

* `Run.InStep` — two evaluations are in step;
* `Run.EndsAs` — two evaluations end as if they were in step;
* `Run.Concur` — two evaluations are in step unless one of them exhausts the stack;
* `Run.inStep`, `Run.concurrence` — being in step is a way to relate evaluations, and so is that.
-/
import JsonQuery.Proofs.Eval.Likeness

namespace JsonQuery
namespace Run
variable {α β γ δ : Type} {excused : Failure → Prop} {near : α → β → Prop}

/-- Two outcomes are related results or the same failure. -/
inductive SameOutcome (near : α → β → Prop) : Except Failure α → Except Failure β → Prop
  | ok {a b} : near a b → SameOutcome near (.ok a) (.ok b)
  | error (f : Failure) : SameOutcome near (.error f) (.error f)

theorem SameOutcome.eq {o o' : Except Failure α} (h : SameOutcome Eq o o') : o = o' := by
  cases h with
  | ok h => rw [h]
  | error => rfl

/-- Two evaluations make the same last call and end alike, unless the first has an excused
failure. -/
def InStep (excused : Failure → Prop) (near : α → β → Prop) (x : Run α) (y : Run β) : Prop :=
  (∃ f, x.outcome = .error f ∧ excused f) ∨
    x.lastCall = y.lastCall ∧ SameOutcome near x.outcome y.outcome

theorem inStep_bind {near' : γ → δ → Prop} {x : Run α} {y : Run β} {f : α → Run γ} {g : β → Run δ}
    (h : InStep excused near x y) (hf : ∀ ⦃a b⦄, near a b → InStep excused near' (f a) (g b)) :
    InStep excused near' (x >>= f) (y >>= g) := by
  obtain ⟨ox, cx⟩ := x
  obtain ⟨oy, cy⟩ := y
  rcases h with ⟨e, rfl, he⟩ | ⟨rfl, h⟩
  · exact .inl ⟨e, rfl, he⟩
  · cases h with
    | error e => exact .inr ⟨rfl, .error e⟩
    | @ok a b hab =>
      rcases hf hab with ⟨e, hfa, he⟩ | ⟨hcall, hfa⟩
      · exact .inl ⟨e, hfa, he⟩
      · refine .inr ⟨?_, hfa⟩
        show ((f a).lastCall <|> cx) = ((g b).lastCall <|> cx)
        rw [hcall]

theorem inStep_afterCall {x : Run α} {y : Run β} {o o' : Int} (ho : o = o')
    (h : InStep excused near x y) : InStep excused near (x.afterCall o) (y.afterCall o') := by
  subst ho
  rcases h with h | ⟨hcall, h⟩
  · exact .inl h
  · refine .inr ⟨?_, h⟩
    show (x.lastCall <|> some o) = (y.lastCall <|> some o)
    rw [hcall]

/-! ### Ends alone -/

/-- Two evaluations end alike, unless the first has an excused failure.  They may have made
different calls. -/
def EndsAs (excused : Failure → Prop) (near : α → β → Prop) (x : Run α) (y : Run β) : Prop :=
  (∃ f, x.outcome = .error f ∧ excused f) ∨ SameOutcome near x.outcome y.outcome

theorem InStep.endsAs {x : Run α} {y : Run β} (h : InStep excused near x y) :
    EndsAs excused near x y :=
  h.imp_right And.right

theorem endsAs_bind {near' : γ → δ → Prop} {x : Run α} {y : Run β} {f : α → Run γ} {g : β → Run δ}
    (h : EndsAs excused near x y) (hf : ∀ ⦃a b⦄, near a b → EndsAs excused near' (f a) (g b)) :
    EndsAs excused near' (x >>= f) (y >>= g) := by
  obtain ⟨ox, cx⟩ := x
  obtain ⟨oy, cy⟩ := y
  rcases h with ⟨e, rfl, he⟩ | h
  · exact .inl ⟨e, rfl, he⟩
  · cases h with
    | error e => exact .inr (.error e)
    | ok hab => exact hf hab

theorem EndsAs.imp {near' : α → β → Prop} {x : Run α} {y : Run β} (h : EndsAs excused near x y)
    (hn : ∀ ⦃a b⦄, near a b → near' a b) : EndsAs excused near' x y := by
  rw [← bind_pure x, ← bind_pure y]
  refine endsAs_bind h ?_
  intro a b hab
  exact .inr (.ok (hn hab))

theorem EndsAs.ok {x : Run α} {y : Run β} (h : EndsAs excused near x y) {a : α}
    (hx : x.outcome = .ok a) : ∃ b, y.outcome = .ok b ∧ near a b := by
  obtain ⟨ox, cx⟩ := x
  obtain ⟨oy, cy⟩ := y
  obtain rfl : ox = .ok a := hx
  rcases h with ⟨e, he, -⟩ | h
  · cases he
  · cases h with
    | ok hab => exact ⟨_, rfl, hab⟩

theorem EndsAs.error {x : Run α} {y : Run β} (h : EndsAs excused near x y) {f : Failure}
    (hx : x.outcome = .error f) (hf : ¬ excused f) : y.outcome = .error f := by
  obtain ⟨ox, cx⟩ := x
  obtain ⟨oy, cy⟩ := y
  obtain rfl : ox = .error f := hx
  rcases h with ⟨e, he, hexcused⟩ | h
  · cases he
    exact absurd hexcused hf
  · cases h with
    | error => rfl

/-- What is known of the result of the second evaluation is known of both. -/
theorem EndsAs.and_ok {p : β → Prop} {x : Run α} {y : Run β} (h : EndsAs excused near x y)
    (hp : ∀ b, y.outcome = .ok b → p b) : EndsAs excused (fun a b => near a b ∧ p b) x y := by
  obtain ⟨ox, cx⟩ := x
  obtain ⟨oy, cy⟩ := y
  refine h.imp_right ?_
  intro h
  cases h with
  | error e => exact .error e
  | @ok a b hab => exact .ok ⟨hab, hp b rfl⟩

/-! ### Where the stack suffices -/

/-- Two evaluations make the same last call and end alike, unless one of them exhausts the stack. -/
def Concur (near : α → β → Prop) (x : Run α) (y : Run β) : Prop :=
  x.outcome = .error .exhausted ∨ y.outcome = .error .exhausted ∨
    x.lastCall = y.lastCall ∧ SameOutcome near x.outcome y.outcome

theorem concur_bind {near' : γ → δ → Prop} {x : Run α} {y : Run β} {f : α → Run γ} {g : β → Run δ}
    (h : Concur near x y) (hf : ∀ ⦃a b⦄, near a b → Concur near' (f a) (g b)) :
    Concur near' (x >>= f) (y >>= g) := by
  obtain ⟨ox, cx⟩ := x
  obtain ⟨oy, cy⟩ := y
  rcases h with rfl | rfl | ⟨rfl, h⟩
  · exact .inl rfl
  · exact .inr (.inl rfl)
  · cases h with
    | error e => exact .inr (.inr ⟨rfl, .error e⟩)
    | @ok a b hab =>
      refine (hf hab).imp_right fun h => h.imp_right fun ⟨hcall, hout⟩ => ⟨?_, hout⟩
      show ((f a).lastCall <|> cx) = ((g b).lastCall <|> cx)
      rw [hcall]

theorem concur_afterCall {x : Run α} {y : Run β} {o o' : Int} (ho : o = o')
    (h : Concur near x y) : Concur near (x.afterCall o) (y.afterCall o') := by
  subst ho
  refine h.imp_right fun h => h.imp_right fun ⟨hcall, hout⟩ => ⟨?_, hout⟩
  show (x.lastCall <|> some o) = (y.lastCall <|> some o)
  rw [hcall]

/-! ### The relations -/

/-- Being in step relates evaluations at the same places. -/
def inStep (excused : Failure → Prop) : Relator where
  rel := InStep excused
  place := Eq
  pure h := .inr ⟨rfl, .ok h⟩
  fail h := by
    cases h with
    | problem _ ho => exact .inr ⟨rfl, ho ▸ .error _⟩
    | sumOverflow | exhausted | host => exact .inr ⟨rfl, .error _⟩
  bind := inStep_bind
  afterCall := inStep_afterCall

/-- So does being in step where the stack suffices. -/
def concurrence : Relator where
  rel := Concur
  place := Eq
  pure h := .inr (.inr ⟨rfl, .ok h⟩)
  fail h := by
    cases h with
    | problem _ ho => exact .inr (.inr ⟨rfl, ho ▸ .error _⟩)
    | sumOverflow | exhausted | host => exact .inr (.inr ⟨rfl, .error _⟩)
  bind := concur_bind
  afterCall := concur_afterCall

end Run
end JsonQuery
