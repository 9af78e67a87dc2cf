/-
The order of keys, and what is made of items by it.

Keys are ordered totally up to equality: numbers by their value and texts by their code points.
Sorted items are those that came, in an order that keys do not decrease along, and those with equal
keys stay as they came.  So the sorted items start with the first of those that have the least key.

* `SortKey.le_total`, `SortKey.le_trans` — the order of keys;
* `sortedBy_mergeSort` — sorting is stable;
* `SortedBy.head?_eq` — what sorted items start with;
* `leastByKey_map`, `greatestByKey_map` — the earliest item with the least and the greatest key.
-/
import Mathlib.Data.List.Basic
import JsonQuery.Function.SortKey

namespace JsonQuery

/-! ### Keys -/

namespace CodePoint

instance : LE CodePoint := ⟨fun a b => a.toNat ≤ b.toNat⟩

instance : Std.IsLinearOrder CodePoint where
  le_refl a := Nat.le_refl a.toNat
  le_trans _ _ _ := Nat.le_trans
  le_antisymm _ _ hab hba := toNat_injective (Nat.le_antisymm hab hba)
  le_total a b := Nat.le_total a.toNat b.toNat

instance : Std.LawfulOrderLT CodePoint where
  lt_iff _ _ := Nat.lt_iff_le_and_not_ge

end CodePoint

namespace SortKey

/-- Neither of two keys comes before the other. -/
def same (a b : SortKey) : Bool :=
  a.le b && b.le a

@[simp] theorem le_number {x y : Number} : (number x).le (number y) ↔ x.toInt ≤ y.toInt := by
  simp [le, lt, Number.lt]

@[simp] theorem le_text {s t : Text} : (text s).le (text t) ↔ s ≤ t := by
  simp [le, lt]

/-- Numbers come before texts. -/
theorem not_text_le_number {t : Text} {x : Number} : ¬ (text t).le (number x) :=
  Bool.false_ne_true

theorem lt_iff_not_le {a b : SortKey} : a.lt b ↔ ¬ b.le a := by
  simp [le]

theorem le_total (a b : SortKey) : a.le b ∨ b.le a := by
  cases a with
  | number x =>
    cases b with
    | number y => simpa using Int.le_total x.toInt y.toInt
    | text t => exact .inl rfl
  | text s =>
    cases b with
    | number y => exact .inr rfl
    | text t => simpa using List.le_total s t

theorem le_trans {a b c : SortKey} (hab : a.le b) (hbc : b.le c) : a.le c := by
  cases a with
  | number x =>
    cases b with
    | number y =>
      cases c with
      | number z =>
        rw [le_number] at hab hbc ⊢
        omega
      | text u => rfl
    | text t =>
      cases c with
      | number z => exact absurd hbc not_text_le_number
      | text u => rfl
  | text s =>
    cases b with
    | number y => exact absurd hab not_text_le_number
    | text t =>
      cases c with
      | number z => exact absurd hbc not_text_le_number
      | text u =>
        rw [le_text] at hab hbc ⊢
        exact List.le_trans hab hbc

theorem lt_asymm {a b : SortKey} (h : a.lt b) : ¬ b.lt a := by
  rw [lt_iff_not_le] at h ⊢
  exact not_not.mpr ((le_total a b).resolve_right h)

/-- A key that comes before another one comes before or after any third. -/
theorem lt_or_lt {a b : SortKey} (h : a.lt b) (c : SortKey) : a.lt c ∨ c.lt b := by
  rw [lt_iff_not_le] at h
  simp only [lt_iff_not_le]
  by_contra hc
  push Not at hc
  exact h (le_trans hc.2 hc.1)

end SortKey

/-! ### Sorted items -/

section
variable {α : Type} {key : α → SortKey} {xs ys : List α} {m : α}

/-- Items in the order of their keys, of which those with equal keys stand as they came. -/
structure SortedBy (key : α → SortKey) (xs ys : List α) : Prop where
  perm : ys.Perm xs
  ordered : ys.Pairwise fun x y => (key x).le (key y)
  stable : ∀ k, (ys.filter fun x => (key x).same k) = xs.filter fun x => (key x).same k

/-- The first item that none goes before. -/
def Foremost (before : α → α → Bool) (m : α) (xs : List α) : Prop :=
  ∃ pre post, xs = pre ++ m :: post ∧ (∀ x ∈ pre, before m x) ∧ ∀ x ∈ post, ¬ before x m

/-- Merge sort sorts, and it is stable. -/
theorem sortedBy_mergeSort (key : α → SortKey) (xs : List α) :
    SortedBy key xs (xs.mergeSort fun x y => (key x).le (key y)) := by
  let le (x y : α) : Bool := (key x).le (key y)
  have htrans : ∀ x y z, le x y → le y z → le x z := fun _ _ _ => SortKey.le_trans
  have htotal : ∀ x y, (le x y || le y x) = true := by
    intro x y
    simpa using SortKey.le_total (key x) (key y)
  have hperm : (xs.mergeSort le).Perm xs := List.mergeSort_perm xs le
  refine ⟨hperm, List.pairwise_mergeSort htrans htotal xs, ?_⟩
  intro k
  let ofKey (x : α) : Bool := (key x).same k
  -- The items of one key are in order already, so sorting keeps them as they came.
  have hordered : (xs.filter ofKey).Pairwise fun x y => le x y := by
    refine List.pairwise_of_forall_mem_list ?_
    intro x hx y hy
    have hx' := (List.mem_filter.mp hx).2
    have hy' := (List.mem_filter.mp hy).2
    simp only [ofKey, SortKey.same, Bool.and_eq_true] at hx' hy'
    exact SortKey.le_trans hx'.1 hy'.2
  have hsub : (xs.filter ofKey).Sublist (xs.mergeSort le) :=
    List.sublist_mergeSort htrans htotal hordered List.filter_sublist
  have hsub' := hsub.filter ofKey
  rw [List.filter_filter] at hsub'
  simp only [Bool.and_self] at hsub'
  exact (hsub'.eq_of_length (hperm.filter ofKey).length_eq.symm).symm

/-- The sorted items start with the first item that no other goes before. -/
theorem SortedBy.head?_eq (hs : SortedBy key xs ys)
    (hm : Foremost (fun x y => (key x).lt (key y)) m xs) : ys.head? = some m := by
  obtain ⟨pre, post, rfl, hpre, hpost⟩ := hm
  have hmem : m ∈ ys := hs.perm.mem_iff.mpr (by simp)
  cases ys with
  | nil => simp at hmem
  | cons y ys =>
    have hle : (key y).le (key m) := by
      rcases List.mem_cons.mp hmem with rfl | hmem
      · simpa using SortKey.le_total (key m) (key m)
      · exact List.rel_of_pairwise_cons hs.ordered hmem
    have hy : y ∈ pre ++ m :: post := hs.perm.mem_iff.mp List.mem_cons_self
    have hge : (key m).le (key y) := by
      simp only [List.mem_append, List.mem_cons] at hy
      rcases hy with hy | rfl | hy
      · exact absurd hle (SortKey.lt_iff_not_le.mp (hpre y hy))
      · exact hle
      · simpa [SortKey.lt_iff_not_le] using hpost y hy
    -- Both are the first with this key, the one as they came and the other as they are sorted.
    have hnone : (pre.filter fun x => (key x).same (key m)) = [] := by
      rw [List.filter_eq_nil_iff]
      intro x hx
      have := SortKey.lt_iff_not_le.mp (hpre x hx)
      simp [SortKey.same, this]
    have hself : (key m).same (key m) := by
      simpa [SortKey.same] using SortKey.le_total (key m) (key m)
    have hsame : (key y).same (key m) := by
      simp [SortKey.same, hle, hge]
    have hfirst := hs.stable (key m)
    simp only [List.filter_append, hnone, List.nil_append, List.filter_cons, hsame, hself,
      if_true] at hfirst
    rw [List.head?_cons, (List.cons.inj hfirst).1]

/-- Going through some items with the best one so far finds the first that none goes before. -/
theorem foremost_foldl {before : α → α → Bool} (hasymm : ∀ ⦃x y⦄, before x y → ¬ before y x)
    (hbefore : ∀ ⦃x y⦄, before x y → ∀ z, before x z ∨ before z y) (x : α) (xs : List α) :
    Foremost before (xs.foldl (fun best y => if before y best then y else best) x) (x :: xs) := by
  induction xs generalizing x with
  | nil => exact ⟨[], [], rfl, by simp, by simp⟩
  | cons y ys ih =>
    rw [List.foldl_cons]
    split
    · next hyx =>
      -- What goes before the second item goes before the first one too.
      obtain ⟨pre, post, heq, hpre, hpost⟩ := ih y
      generalize ys.foldl _ y = m at heq hpre hpost ⊢
      have hmx : before m x := by
        rcases List.cons_eq_append_iff.mp heq with ⟨-, hm⟩ | ⟨pre', rfl, -⟩
        · rw [(List.cons.inj hm).1]
          exact hyx
        · exact (hbefore (hpre y List.mem_cons_self) x).resolve_right (hasymm hyx)
      exact ⟨x :: pre, post, by rw [heq]; rfl, List.forall_mem_cons.mpr ⟨hmx, hpre⟩, hpost⟩
    · next hyx =>
      obtain ⟨pre, post, heq, hpre, hpost⟩ := ih x
      generalize ys.foldl _ x = m at heq hpre hpost ⊢
      rcases List.cons_eq_append_iff.mp heq with ⟨rfl, hm⟩ | ⟨pre', rfl, rfl⟩
      · obtain ⟨rfl, rfl⟩ := List.cons.inj hm
        exact ⟨[], y :: post, rfl, hpre, List.forall_mem_cons.mpr ⟨hyx, hpost⟩⟩
      · obtain ⟨hx, hpre'⟩ := List.forall_mem_cons.mp hpre
        have hy := (hbefore hx y).resolve_right hyx
        refine ⟨x :: y :: pre', post, rfl, ?_, hpost⟩
        exact List.forall_mem_cons.mpr ⟨hx, List.forall_mem_cons.mpr ⟨hy, hpre'⟩⟩

end

/-! ### Items with their keys -/

section
variable {key : Value → SortKey} {xs : List Value} {m : Value}

theorem sortByKeys_map (key : Value → SortKey) (xs : List Value) :
    sortByKeys (xs.map fun x => (key x, x)) = xs.mergeSort fun x y => (key x).le (key y) := by
  have hmap := List.map_mergeSort (r := fun x y => (key x).le (key y))
    (s := fun a b : SortKey × Value => a.1.le b.1) (f := fun x => (key x, x)) (l := xs)
    fun _ _ _ _ => rfl
  rw [sortByKeys, ← hmap, List.map_map]
  exact List.map_id _

/-- Going through items with their keys is going through the items. -/
theorem foldl_keyed (before : SortKey → SortKey → Bool) (x : Value) (xs : List Value) :
    ((xs.map fun x => (key x, x)).foldl (fun best y => if before y.1 best.1 then y else best)
      (key x, x)).2 =
    xs.foldl (fun best y => if before (key y) (key best) then y else best) x := by
  induction xs generalizing x with
  | nil => rfl
  | cons y ys ih =>
    rw [List.map_cons, List.foldl_cons, List.foldl_cons]
    split
    · exact ih y
    · exact ih x

theorem leastByKey_map (x : Value) (xs : List Value) :
    ∃ m, leastByKey ((x :: xs).map fun x => (key x, x)) = some m ∧
      Foremost (fun x y => (key x).lt (key y)) m (x :: xs) := by
  refine ⟨_, congrArg some (foldl_keyed (fun y best => y.lt best) x xs), ?_⟩
  refine foremost_foldl (fun _ _ => SortKey.lt_asymm) ?_ x xs
  exact fun _ _ h z => SortKey.lt_or_lt h (key z)

theorem greatestByKey_map (x : Value) (xs : List Value) :
    ∃ m, greatestByKey ((x :: xs).map fun x => (key x, x)) = some m ∧
      Foremost (fun x y => (key y).lt (key x)) m (x :: xs) := by
  refine ⟨_, congrArg some (foldl_keyed (fun y best => best.lt y) x xs), ?_⟩
  refine foremost_foldl (fun _ _ => SortKey.lt_asymm) ?_ x xs
  exact fun _ _ h z => (SortKey.lt_or_lt h (key z)).symm

end

end JsonQuery
