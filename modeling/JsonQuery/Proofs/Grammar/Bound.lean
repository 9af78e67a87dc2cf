/-
The bound on lists is never reached.

The loops of the parser over elements, pairs, arguments and operators are given the number of
tokens as a bound.  Each turn takes a token, so a greater bound changes nothing: a loop ends
because of what it meets and not because it is stopped.

* `Grammar.expression_bound` — the parser of expressions is the same under every bound that is no
  less than the number of tokens.
-/
import JsonQuery.Proofs.Grammar.Sound

namespace JsonQuery
namespace Grammar

open JsonQuery.Parser

theorem bind_congr_ok {ε α β : Type} {x y : Except ε α} {f g : α → Except ε β} (hx : x = y)
    (h : ∀ a, y = .ok a → f a = g a) : x >>= f = y >>= g := by
  subst hx
  cases x with
  | error => rfl
  | ok a => exact h a rfl

section
variable {stop bound bound' : Nat} {sub sub' : Nat → Step Expr} {S : Reading} {ts : List Token}
  (hS : Sound bound' sub' S) (hbb : bound ≤ bound')
  (hA : ∀ ⦃least ts⦄, ts.length ≤ bound → sub least ts = sub' least ts)
include hS hbb hA

theorem elements_bound {fuel fuel' : Nat} (hb : ts.length ≤ bound) (hf : ts.length < fuel)
    (hf' : ts.length < fuel') : elements stop sub fuel ts = elements stop sub' fuel' ts := by
  induction fuel generalizing fuel' ts with
  | zero => exact absurd hf (Nat.not_lt_zero _)
  | succ fuel ih =>
    cases fuel' with
    | zero => exact absurd hf' (Nat.not_lt_zero _)
    | succ fuel' =>
      unfold elements
      split
      · rfl
      · refine bind_congr_ok (hA hb) fun ⟨e, mid⟩ he => ?_
        have hlt := (hS (Nat.le_trans hb hbb) he).2
        dsimp only
        split
        · rfl
        · rw [List.length_cons] at hlt
          exact bind_congr_ok (ih (by omega) (by omega) (by omega)) fun _ _ => rfl
        · rfl
        · rfl

omit hS hbb in
theorem pair_bound (hb : ts.length ≤ bound) : pair stop sub ts = pair stop sub' ts := by
  cases ts with
  | nil => rfl
  | cons t ts =>
    rw [pair, pair]
    split
    · rfl
    · refine bind_congr_ok rfl fun mid hm => ?_
      obtain ⟨o, rfl⟩ := expect_eq_ok.mp hm
      simp only [List.length_cons] at hb
      exact bind_congr_ok (hA (by omega)) fun _ _ => rfl

theorem pairs_bound {fuel fuel' : Nat} (hb : ts.length ≤ bound) (hf : ts.length < fuel)
    (hf' : ts.length < fuel') : pairs stop sub fuel ts = pairs stop sub' fuel' ts := by
  induction fuel generalizing fuel' ts with
  | zero => exact absurd hf (Nat.not_lt_zero _)
  | succ fuel ih =>
    cases fuel' with
    | zero => exact absurd hf' (Nat.not_lt_zero _)
    | succ fuel' =>
      rw [pairs, pairs]
      refine bind_congr_ok (pair_bound hA hb) ?_
      rintro ⟨p, mid⟩ hp
      obtain ⟨_, _, _, _, _, hlt⟩ := pair_sound hS (Nat.le_trans hb hbb) hp
      dsimp only
      split
      · rfl
      · rw [List.length_cons] at hlt
        exact bind_congr_ok (ih (by omega) (by omega) (by omega)) fun _ _ => rfl
      · rfl
      · rfl

theorem arguments_bound {name : Text} {fuel fuel' : Nat} (hb : ts.length ≤ bound)
    (hf : ts.length < fuel) (hf' : ts.length < fuel') :
    arguments stop sub name fuel ts = arguments stop sub' name fuel' ts := by
  induction fuel generalizing fuel' ts with
  | zero => exact absurd hf (Nat.not_lt_zero _)
  | succ fuel ih =>
    cases fuel' with
    | zero => exact absurd hf' (Nat.not_lt_zero _)
    | succ fuel' =>
      unfold arguments
      split
      · rfl
      · rfl
      · refine bind_congr_ok (hA hb) fun ⟨e, mid⟩ he => ?_
        have hlt := (hS (Nat.le_trans hb hbb) he).2
        dsimp only
        split
        · rfl
        · rfl
        · rw [List.length_cons] at hlt
          exact bind_congr_ok (ih (by omega) (by omega) (by omega)) fun _ _ => rfl
        · rfl

theorem afterDot_bound {least : Nat} (hb : ts.length ≤ bound) :
    afterDot stop bound sub least ts = afterDot stop bound' sub' least ts := by
  unfold afterDot
  split
  · exact hA hb
  · exact hA hb
  · exact hA hb
  · rw [List.length_cons] at hb
    exact bind_congr_ok (elements_bound hS hbb hA (by omega) (by omega) (by omega)) fun _ _ => rfl
  · rw [List.length_cons] at hb
    exact bind_congr_ok (pairs_bound hS hbb hA (by omega) (by omega) (by omega)) fun _ _ => rfl
  · rfl

theorem projected_bound {least : Nat} (hb : ts.length ≤ bound) :
    projected stop bound sub least ts = projected stop bound' sub' least ts := by
  unfold projected
  split
  · rfl
  · split
    · exact hA hb
    · exact hA hb
    · rw [List.length_cons] at hb
      exact afterDot_bound hS hbb hA (by omega)
    · rfl

theorem bracketed_bound {left : Expr} {o : Nat} (hb : ts.length ≤ bound)
    (ho : startsBracket ts = true) :
    bracketed stop bound sub left o ts = bracketed stop bound' sub' left o ts := by
  refine bind_congr_ok rfl fun ⟨a, mid⟩ ha => ?_
  have hlt := (bracket_sound ho ha).2
  dsimp only
  split
  · exact bind_congr_ok (projected_bound hS hbb hA (by omega)) fun _ _ => rfl
  · rfl

theorem filtered_bound {left : Expr} {o : Nat} (hb : ts.length ≤ bound) :
    filtered stop bound sub left o ts = filtered stop bound' sub' left o ts := by
  refine bind_congr_ok (hA hb) fun ⟨p, mid⟩ hp => ?_
  have hlt := (hS (Nat.le_trans hb hbb) hp).2
  refine bind_congr_ok rfl fun mid' hm => ?_
  obtain ⟨o', rfl⟩ := expect_eq_ok.mp hm
  rw [List.length_cons] at hlt
  split
  · rfl
  · exact bind_congr_ok (projected_bound hS hbb hA (by omega)) fun _ _ => rfl

theorem flattened_bound {left : Expr} {o : Nat} (hb : ts.length ≤ bound) :
    flattened stop bound sub left o ts = flattened stop bound' sub' left o ts :=
  bind_congr_ok (projected_bound hS hbb hA hb) fun _ _ => rfl

theorem operand_bound (hb : ts.length ≤ bound) :
    operand stop bound sub ts = operand stop bound' sub' ts := by
  cases ts with
  | nil => rfl
  | cons t ts =>
    rw [List.length_cons] at hb
    unfold operand
    dsimp only
    -- One case for each kind of lexeme that the parser looks for, in its order.
    split
    · rfl
    · rfl
    · rfl
    · rfl
    · rfl
    · split
      · rfl
      · exact bind_congr_ok (projected_bound hS hbb hA (by omega)) fun _ _ => rfl
    · exact filtered_bound hS hbb hA (by omega)
    · exact flattened_bound hS hbb hA (by omega)
    · exact bind_congr_ok (hA (by omega)) fun _ _ => rfl
    · exact bind_congr_ok (hA (by omega)) fun _ _ => rfl
    · exact bind_congr_ok (pairs_bound hS hbb hA (by omega) (by omega) (by omega)) fun _ _ => rfl
    · exact bind_congr_ok (hA (by omega)) fun _ _ => rfl
    · split
      · next ho => exact bracketed_bound hS hbb hA (by omega) ho
      · split
        · simp only [List.length_cons] at hb
          exact bind_congr_ok (projected_bound hS hbb hA (by omega)) fun _ _ => rfl
        · exact bind_congr_ok (elements_bound hS hbb hA (by omega) (by omega) (by omega))
            fun _ _ => rfl
    · rfl

theorem extend_bound {left : Expr} {t : Token} (hb : ts.length < bound) :
    extend stop bound sub left t ts = extend stop bound' sub' left t ts := by
  unfold extend
  -- A dot, a bracket, a filter, a flattening, three infixes, a call and the comparisons.
  split
  · split
    · rw [List.length_cons] at hb
      exact bind_congr_ok (projected_bound hS hbb hA (by omega)) fun _ _ => rfl
    · exact bind_congr_ok (afterDot_bound hS hbb hA (by omega)) fun _ _ => rfl
  · split
    · next ho => exact bracketed_bound hS hbb hA (by omega) ho
    · refine bind_congr_ok rfl fun mid hm => ?_
      obtain ⟨o, rfl⟩ := expect_eq_ok.mp hm
      refine bind_congr_ok rfl fun mid' hm => ?_
      obtain ⟨o', rfl⟩ := expect_eq_ok.mp hm
      simp only [List.length_cons] at hb
      exact bind_congr_ok (projected_bound hS hbb hA (by omega)) fun _ _ => rfl
  · exact filtered_bound hS hbb hA (by omega)
  · exact flattened_bound hS hbb hA (by omega)
  · exact bind_congr_ok (hA (by omega)) fun _ _ => rfl
  · exact bind_congr_ok (hA (by omega)) fun _ _ => rfl
  · exact bind_congr_ok (hA (by omega)) fun _ _ => rfl
  · split
    · exact bind_congr_ok (arguments_bound hS hbb hA (by omega) (by omega) (by omega))
        fun _ _ => rfl
    · rfl
  · split
    · exact bind_congr_ok (hA (by omega)) fun _ _ => rfl
    · rfl
  · rfl

theorem operators_bound {least fuel fuel' : Nat} {left : Expr} (hb : ts.length ≤ bound)
    (hf : ts.length ≤ fuel) (hf' : ts.length ≤ fuel') :
    operators stop bound sub least fuel left ts =
      operators stop bound' sub' least fuel' left ts := by
  induction fuel generalizing fuel' left ts with
  | zero =>
    obtain rfl : ts = [] := List.length_eq_zero_iff.mp (Nat.le_zero.mp hf)
    cases fuel' <;> rfl
  | succ fuel ih =>
    cases ts with
    | nil => cases fuel' <;> rfl
    | cons t ts =>
      rw [List.length_cons] at hb hf hf'
      cases fuel' with
      | zero => exact absurd hf' (Nat.not_succ_le_zero _)
      | succ fuel' =>
        rw [operators, operators]
        split
        · refine bind_congr_ok (extend_bound hS hbb hA hb) ?_
          rintro ⟨left', mid⟩ hx
          have hlt := (extend_sound hS (by omega) hx).2
          exact ih (by omega) (by omega) (by omega)
        · rfl

end

/-- The parser of expressions is the same under every bound that is long enough. -/
theorem expression_bound {stop bound bound' n least : Nat} {ts : List Token}
    (hb : ts.length ≤ bound) (hbb : bound ≤ bound') :
    expression stop bound n least ts = expression stop bound' n least ts := by
  induction n generalizing least ts with
  | zero => rfl
  | succ n ih =>
    have hS := sound_expression stop bound' n
    have hA : ∀ ⦃least ts⦄, ts.length ≤ bound →
        expression stop bound n least ts = expression stop bound' n least ts := fun _ _ => ih
    rw [expression, expression]
    refine bind_congr_ok (operand_bound hS hbb hA hb) ?_
    rintro ⟨left, mid⟩ ho
    have hlt := (operand_sound hS (Nat.le_trans hb hbb) ho).2
    exact operators_bound hS hbb hA (by omega) (by omega) (by omega)

end Grammar
end JsonQuery
