/-
Which items a slice selects.

A slice walks through the positions of an array: from the first one by its step, as long as the
position lies before the last one in the direction of the step.  The bounds that are given count
from the end when they are negative and are moved to an item or next to one, so that the walk ends
and never leaves the array, however large they are.

* `Slice.Walk` — the positions of a walk;
* `Slice.walk_positions` — the positions that a slice selects are those of its walk;
* `Slice.Walk.inside` — a walk does not leave the array;
* `Data.getIndex_eq_some`, `Data.getIndex_outside` — the item at an index;
* `Atom.eval_slice` — the items that a slice selects.
-/
import Mathlib.Algebra.Order.Ring.Int
import Mathlib.Data.List.Forall2
import Mathlib.Tactic.Ring
import JsonQuery.Eval

namespace JsonQuery
namespace Slice

/-! ### Walks -/

/-- A position lies before another one in the direction of a step. -/
inductive Before (step last : Int) (p : Int) : Prop
  | up : 0 < step → p < last → Before step last p
  | down : step < 0 → last < p → Before step last p

/-- The positions from a first one by a step, as long as they lie before the last one. -/
inductive Walk (step last : Int) : Int → List Int → Prop
  | done {p} : ¬ Before step last p → Walk step last p []
  | next {p ps} : Before step last p → Walk step last (p + step) ps → Walk step last p (p :: ps)

/-- The position that a given bound names.  A negative one counts from the end; forwards it is moved
between the first item and the end, backwards between the place before the first item and the last
item. -/
def clamp (step : Int) (length : Nat) (bound : Int) : Int :=
  let p := if bound < 0 then bound + length else bound
  if 0 < step then max 0 (min p length) else max (-1) (min p (length - 1))

/-- The position that a slice starts from. -/
def lo (s : Slice) (length : Nat) : Int :=
  match s.start with
  | some bound => clamp s.stride length bound
  | none => if 0 < s.stride then 0 else length - 1

/-- The position that a slice stops before. -/
def hi (s : Slice) (length : Nat) : Int :=
  match s.stop with
  | some bound => clamp s.stride length bound
  | none => if 0 < s.stride then length else -1

variable {s : Slice} {n : Nat} {step last p : Int} {ps : List Int}

/-- A walk is given by how many of its positions lie before the last one. -/
theorem walk_range (k : Nat) (h : ∀ j : Nat, Before step last (p + j * step) ↔ j < k) :
    Walk step last p ((List.range k).map fun j : Nat => p + j * step) := by
  induction k generalizing p with
  | zero =>
    have hp := h 0
    simp only [Nat.cast_zero, zero_mul, add_zero, lt_irrefl, iff_false] at hp
    exact .done hp
  | succ k ih =>
    have hp : Before step last p := by simpa using h 0
    have hshift : ∀ j : Nat, p + ((j + 1 : Nat) : Int) * step = p + step + j * step := by
      intro j
      push_cast
      ring
    have htail := ih (p := p + step) fun j => by
      rw [← hshift j, h (j + 1), Nat.add_lt_add_iff_right]
    rw [List.range_succ_eq_map, List.map_cons, List.map_map]
    simp only [Nat.cast_zero, zero_mul, add_zero, Function.comp_def, Nat.succ_eq_add_one, hshift]
    exact .next hp htail

/-- All positions of a walk lie from its first one on and before the last one. -/
theorem Walk.between (h : Walk step last p ps) :
    ∀ q ∈ ps, Before step last q ∧ (0 < step → p ≤ q) ∧ (step < 0 → q ≤ p) := by
  induction h with
  | done => simp
  | next hp _ ih =>
    refine List.forall_mem_cons.mpr ⟨⟨hp, fun _ => le_rfl, fun _ => le_rfl⟩, fun q hq => ?_⟩
    obtain ⟨hb, hup, hdown⟩ := ih q hq
    exact ⟨hb, fun hs => by have := hup hs; omega, fun hs => by have := hdown hs; omega⟩

/-- A walk is determined by its step and its ends. -/
theorem Walk.unique {qs : List Int} (h : Walk step last p ps) (h' : Walk step last p qs) :
    ps = qs := by
  induction h generalizing qs with
  | done hp =>
    cases h' with
    | done => rfl
    | next hp' => exact absurd hp' hp
  | next hp _ ih =>
    cases h' with
    | done hp' => exact absurd hp hp'
    | next _ h' => rw [ih h']

/-! ### The walk of a slice -/

theorem place_eq (hs : s.stride ≠ 0) (bound : Int) : s.place n bound = clamp s.stride n bound := by
  rcases lt_or_gt_of_ne hs with h | h
  · simp only [place, range, clamp, if_pos h, if_neg h.not_gt]
    rw [min_comm]
  · simp only [place, range, clamp, if_neg h.not_gt, if_pos h]
    rw [min_comm]

theorem first_eq (hs : s.stride ≠ 0) : s.first n = s.lo n := by
  unfold first lo
  cases s.start with
  | some bound => exact place_eq hs bound
  | none => rcases lt_or_gt_of_ne hs with h | h <;> simp [range, h, h.not_gt]

theorem last_eq (hs : s.stride ≠ 0) : s.last n = s.hi n := by
  unfold last hi
  cases s.stop with
  | some bound => exact place_eq hs bound
  | none => rcases lt_or_gt_of_ne hs with h | h <;> simp [range, h, h.not_gt]

/-- Going on by a step passes a distance after as many steps as are counted. -/
theorem mul_lt_iff_lt_count {m d : Int} (hm : 0 < m) (k : Nat) :
    k * m < d ↔ k < if d ≤ 0 then 0 else ((d - 1) / m + 1).toNat := by
  have hdiv : (k : Int) ≤ (d - 1) / m ↔ k * m ≤ d - 1 := Int.le_ediv_iff_mul_le hm
  split
  · have : 0 ≤ (k : Int) * m := mul_nonneg (Int.natCast_nonneg k) hm.le
    omega
  · have : 0 ≤ (d - 1) / m := Int.ediv_nonneg (by omega) hm.le
    omega

/-- As many steps of a slice lead to a position before its last one as it counts. -/
theorem before_iff_lt_count (hs : s.stride ≠ 0) (k : Nat) :
    Before s.stride (s.hi n) (s.lo n + k * s.stride) ↔ k < s.count n := by
  have hcount : s.count n =
      if (if s.stride < 0 then s.lo n - s.hi n else s.hi n - s.lo n) ≤ 0 then 0
      else (((if s.stride < 0 then s.lo n - s.hi n else s.hi n - s.lo n) - 1) / s.stride.natAbs
        + 1).toNat := by
    simp only [count, first_eq hs, last_eq hs, hs, false_or]
  rw [hcount, ← mul_lt_iff_lt_count (by omega) k]
  rcases lt_or_gt_of_ne hs with h | h
  · have habs : (s.stride.natAbs : Int) = -s.stride := by omega
    rw [if_pos h, habs, mul_neg]
    constructor
    · rintro (⟨h', _⟩ | ⟨_, hlt⟩) <;> omega
    · intro hlt
      exact .down h (by omega)
  · have habs : (s.stride.natAbs : Int) = s.stride := by omega
    rw [if_neg h.not_gt, habs]
    constructor
    · rintro (⟨_, hlt⟩ | ⟨h', _⟩) <;> omega
    · intro hlt
      exact .up h (by omega)

/-- The positions that a slice selects are those of its walk. -/
theorem walk_positions (hs : s.stride ≠ 0) (n : Nat) :
    ∃ ps, Walk s.stride (s.hi n) (s.lo n) ps ∧ s.positions n = ps.map Int.toNat := by
  refine ⟨_, walk_range (s.count n) (before_iff_lt_count hs), ?_⟩
  rw [positions, first_eq hs, List.map_map]
  rfl

theorem clamp_range_up (h : 0 < step) (bound : Int) :
    0 ≤ clamp step n bound ∧ clamp step n bound ≤ n := by
  rw [clamp, if_pos h]
  omega

theorem clamp_range_down (h : step < 0) (bound : Int) :
    -1 ≤ clamp step n bound ∧ clamp step n bound ≤ n - 1 := by
  rw [clamp, if_neg h.not_gt]
  omega

/-- A walk that starts and ends within the bounds of its direction does not leave the array. -/
theorem Walk.inside (h : Walk s.stride (s.hi n) (s.lo n) ps) :
    ∀ p ∈ ps, 0 ≤ p ∧ p < n := by
  intro p hp
  obtain ⟨hbefore, hup, hdown⟩ := h.between p hp
  rcases hbefore with ⟨hpos, hlt⟩ | ⟨hneg, hlt⟩
  · have hlo : 0 ≤ s.lo n := by
      unfold lo
      cases s.start with
      | some bound => exact (clamp_range_up hpos bound).1
      | none => simp [hpos]
    have hhi : s.hi n ≤ n := by
      unfold hi
      cases s.stop with
      | some bound => exact (clamp_range_up hpos bound).2
      | none => simp [hpos]
    exact ⟨hlo.trans (hup hpos), hlt.trans_le hhi⟩
  · have hlo : s.lo n ≤ n - 1 := by
      unfold lo
      cases s.start with
      | some bound => exact (clamp_range_down hneg bound).2
      | none => simp [hneg.not_gt]
    have hhi : -1 ≤ s.hi n := by
      unfold hi
      cases s.stop with
      | some bound => exact (clamp_range_down hneg bound).1
      | none => simp [hneg.not_gt]
    have := hdown hneg
    omega

end Slice

/-! ### Items -/

namespace Data
variable {ρ : Type} {xs : List (Data ρ)} {y : Data ρ}

/-- An item is found at its position, counted from the start and from the end. -/
theorem getIndex_eq_some {p : Int} (h : 0 ≤ p ∧ p < xs.length) (hy : xs[p.toNat]? = some y) :
    (Data.arr xs).getIndex p = y ∧ (Data.arr xs).getIndex (p - xs.length) = y := by
  obtain ⟨hlo, hhi⟩ := h
  have hend : p - xs.length + xs.length = p := by omega
  constructor
  · simp [getIndex, hlo.not_gt, hy]
  · simp [getIndex, hend, hlo.not_gt, hhi, hy]

/-- There is no item at an index beyond either end. -/
theorem getIndex_outside {i : Int} (h : i < -xs.length ∨ xs.length ≤ i) :
    (Data.arr xs).getIndex i = .null := by
  simp only [getIndex]
  rcases h with h | h
  · rw [if_pos (by omega)]
  · rw [if_neg (by omega), List.getElem?_eq_none (by omega)]
    rfl

/-- The items at positions within a list, one for each of them. -/
theorem forall₂_items {ps : List Int} (h : ∀ p ∈ ps, 0 ≤ p ∧ p < xs.length) :
    List.Forall₂ (fun (p : Int) y => (0 ≤ p ∧ p < xs.length) ∧ xs[p.toNat]? = some y) ps
      ((ps.map Int.toNat).filterMap (xs[·]?)) := by
  induction ps with
  | nil => exact .nil
  | cons p ps ih =>
    obtain ⟨hp, hps⟩ := List.forall_mem_cons.mp h
    have hget : xs[p.toNat]? = some xs[p.toNat] := List.getElem?_eq_getElem (by omega)
    rw [List.map_cons, List.filterMap_cons_some hget]
    exact .cons ⟨hp, hget⟩ (ih hps)

end Data

/-- A slice of an array selects the items at the positions of its walk, in their order.  Each
position lies within the array and its item is the one that it has as an index, counted from either
end; an index beyond the ends has none. -/
theorem Atom.eval_slice (s : Slice) (hs : s.step ≠ some 0) (xs : List Value) (offset : Nat) :
    (∃ ps ys, Slice.Walk s.stride (s.hi xs.length) (s.lo xs.length) ps ∧
      (Data.arr xs).slice? s = some (.arr ys) ∧
      (Atom.slice s).eval (.arr xs) offset = pure (.arr ys) ∧
      List.Forall₂ (fun (p : Int) y => (0 ≤ p ∧ p < xs.length) ∧ xs[p.toNat]? = some y ∧
        (Data.arr xs).getIndex p = y ∧ (Data.arr xs).getIndex (p - xs.length) = y) ps ys) ∧
      ∀ i : Int, i < -xs.length ∨ xs.length ≤ i → (Data.arr xs).getIndex i = .null := by
  have hstride : s.stride ≠ 0 := by
    rw [Slice.stride]
    cases hstep : s.step with
    | none => simp
    | some step => simpa [hstep] using hs
  obtain ⟨ps, hwalk, hps⟩ := Slice.walk_positions hstride xs.length
  have hitems := Data.forall₂_items (hwalk.inside)
  rw [← hps] at hitems
  refine ⟨⟨ps, s.select xs, hwalk, ?_, ?_, ?_⟩, fun i hi => Data.getIndex_outside hi⟩
  · simp [Data.slice?, Data.slice, hs]
  · simp [Atom.eval, Data.slice, hs]
  · exact hitems.imp fun p y hy => ⟨hy.1, hy.2, Data.getIndex_eq_some hy.1 hy.2⟩

/-- Backwards by two from the last item, to a bound far before the first one. -/
theorem Atom.eval_slice_backwards :
    Slice.Walk (-2) (-1) 4 [4, 2, 0] ∧
      (Atom.slice ⟨some (-1), some (-10), some (-2)⟩).eval
        (.arr (["a", "b", "c", "d", "e"].map fun t => .str (.ofString t))) 0 =
        pure (.arr (["e", "c", "a"].map fun t => .str (.ofString t))) := by
  obtain ⟨⟨ps, ys, hwalk, hslice, heval, hitems⟩, -⟩ :=
    Atom.eval_slice ⟨some (-1), some (-10), some (-2)⟩ (by decide)
      (["a", "b", "c", "d", "e"].map fun t => .str (.ofString t)) 0
  have hcomputed : Slice.Walk (-2) (-1) 4 [4, 2, 0] := by
    refine .next (.down ?_ ?_) (.next (.down ?_ ?_) (.next (.down ?_ ?_) (.done ?_)))
    any_goals decide
    rintro (⟨h, -⟩ | ⟨-, h⟩) <;> exact absurd h (by decide)
  have hps : ps = [4, 2, 0] := hwalk.unique hcomputed
  have hys : ys = ["e", "c", "a"].map fun t => .str (.ofString t) := by
    injection Option.some.inj (hslice.symm.trans rfl)
  exact ⟨hps ▸ hwalk, hys ▸ heval⟩

end JsonQuery
