/-
Ordering items by the results of an expression.

If an expression gives numbers or strings for all items, items are ordered by these keys.  Otherwise
there is a first item that the expression fails on, or for which it gives no key or a key of another
kind than for the first item, and the call fails for the reason that this item gives.

* `Builtin.keyed_outcome`, `Builtin.keyed_error` — how the keys of items are found;
* `Builtin.exists_unordered` — items that cannot be ordered have a first such item;
* `Builtin.invoke_ordering` — what the functions that order items do.
-/
import Mathlib.Data.List.Induction
import JsonQuery.Proofs.Eval.Matches
import JsonQuery.Proofs.Function.Sound
import JsonQuery.Proofs.Function.SortKey

namespace JsonQuery
namespace Builtin

open Run

/-! ### Keys of items -/

/-- An evaluation gives a key of a kind for each of some items. -/
def KeyedBy (evaluate : Value → Run Value) (key : Value → SortKey) (kind : Kind)
    (xs : List Value) : Prop :=
  ∀ x ∈ xs, (evaluate x).outcome = .ok (keyValue (key x)) ∧ (key x).kind = kind

/-- Why an item cannot be ordered: its evaluation fails or gives no key, or gives a key of another
kind than that of the first item.  A function at an offset fails for this reason. -/
inductive Unordered (name : Text) (offset : Int) (first : Option Kind) :
    Except Failure Value → Failure → Prop
  | failed {f} : Unordered name offset first (.error f) f
  | noKey {v} : v.kind ≠ .number → v.kind ≠ .string →
    Unordered name offset first (.ok v)
      (.problem (.invalidSortKey name (Text.ofString v.kind.name)) offset)
  | otherKind {key kind} : first = some kind → key.kind ≠ kind →
    Unordered name offset first (.ok (keyValue key))
      (.problem (.invalidSortKey name
        (Text.ofString kind.name ++ Text.ofString " and " ++ Text.ofString key.kind.name)) offset)

section
variable {evaluate : Value → Run Value} {key : Value → SortKey} {kind : Kind} {xs : List Value}

/-- The kind of the first of some keyed items. -/
def firstKind? (key : Value → SortKey) (xs : List Value) : Option Kind :=
  xs.head?.map fun x => (key x).kind

@[simp] theorem ofValue?_keyValue (key : SortKey) : SortKey.ofValue? (keyValue key) = some key := by
  cases key <;> rfl

theorem eq_keyValue {v : Value} {key : SortKey} (h : SortKey.ofValue? v = some key) :
    v = keyValue key := by
  cases v <;> cases h <;> rfl

theorem ofValue?_eq_none {v : Value} :
    SortKey.ofValue? v = none ↔ v.kind ≠ .number ∧ v.kind ≠ .string := by
  cases v <;> simp [SortKey.ofValue?, Data.kind]

/-- The key that an evaluation gives for an item, if it gives one. -/
def keyOf (evaluate : Value → Run Value) (x : Value) : SortKey :=
  match (evaluate x).outcome with
  | .ok v => (SortKey.ofValue? v).getD (.text [])
  | .error _ => .text []

theorem keyOf_eq {x : Value} {k : SortKey} (h : (evaluate x).outcome = .ok (keyValue k)) :
    keyOf evaluate x = k := by
  rw [keyOf, h]
  simp

theorem keyedBy_keyOf (h : KeyedBy evaluate key kind xs) :
    KeyedBy evaluate (keyOf evaluate) kind xs := by
  intro x hx
  rw [keyOf_eq (h x hx).1]
  exact h x hx

theorem KeyedBy.firstKind?_eq (h : KeyedBy evaluate key kind xs) {x : Value} (hx : x ∈ xs) :
    firstKind? key xs = some kind := by
  cases xs with
  | nil => simp at hx
  | cons y ys =>
    rw [firstKind?, List.head?_cons, Option.map_some, (h y List.mem_cons_self).2]

/-- An item after keyed ones has a key of their kind, or it cannot be ordered. -/
theorem keyedBy_or_unordered (h : KeyedBy evaluate (keyOf evaluate) kind xs) (x : Value) :
    (∃ kind', KeyedBy evaluate (keyOf evaluate) kind' (xs ++ [x])) ∨
      ∀ name offset, ∃ f,
        Unordered name offset (firstKind? (keyOf evaluate) xs) (evaluate x).outcome f := by
  cases ho : (evaluate x).outcome with
  | error f => exact .inr fun _ _ => ⟨f, .failed⟩
  | ok v =>
    cases hv : SortKey.ofValue? v with
    | none =>
      obtain ⟨hn, hs⟩ := ofValue?_eq_none.mp hv
      exact .inr fun _ _ => ⟨_, .noKey hn hs⟩
    | some k =>
      obtain rfl := eq_keyValue hv
      by_cases hk : ∀ first ∈ firstKind? (keyOf evaluate) xs, k.kind = first
      · refine .inl ⟨k.kind, List.forall_mem_append.mpr ⟨?_, List.forall_mem_singleton.mpr ?_⟩⟩
        · intro y hy
          rw [hk kind (h.firstKind?_eq hy)]
          exact h y hy
        · rw [keyOf_eq ho]
          exact ⟨ho, rfl⟩
      · push Not at hk
        obtain ⟨first, hf, hne⟩ := hk
        exact .inr fun _ _ => ⟨_, .otherKind hf hne⟩

/-- Items that cannot be ordered by an evaluation have a first one that cannot. -/
theorem exists_unordered (h : ¬ ∃ key kind, KeyedBy evaluate key kind xs) :
    ∃ pre x post key kind, xs = pre ++ x :: post ∧ KeyedBy evaluate key kind pre ∧
      ∀ name offset, ∃ f,
        Unordered name offset (firstKind? key pre) (evaluate x).outcome f := by
  induction xs using List.reverseRecOn with
  | nil => exact absurd ⟨keyOf evaluate, .null, List.forall_mem_nil _⟩ h
  | append_singleton xs x ih =>
    by_cases hxs : ∃ key kind, KeyedBy evaluate key kind xs
    · obtain ⟨key, kind, hxs⟩ := hxs
      refine ⟨xs, x, [], keyOf evaluate, kind, rfl, keyedBy_keyOf hxs, ?_⟩
      rcases keyedBy_or_unordered (keyedBy_keyOf hxs) x with ⟨kind', hall⟩ | hx
      · exact absurd ⟨_, kind', hall⟩ h
      · exact hx
    · obtain ⟨pre, y, post, key, kind, rfl, hpre, hy⟩ := ih hxs
      exact ⟨pre, y, post ++ [x], key, kind, by simp, hpre, hy⟩

/-! ### Finding the keys -/

variable {name : Text} {c : Call} {body : Expr} {expected : Option Kind}

/-- Items that have keys of one kind are given with them. -/
theorem keyed_outcome (h : KeyedBy (c.evaluate body) key kind xs)
    (he : expected.getD kind = kind) :
    (keyed name c body expected xs).outcome = .ok (xs.map fun x => (key x, x)) := by
  induction xs generalizing expected with
  | nil => rfl
  | cons x xs ih =>
    obtain ⟨⟨hx, hk⟩, hxs⟩ := List.forall_mem_cons.mp h
    rw [keyed, outcome_bind_of_ok hx, ofValue?_keyValue]
    dsimp only
    rw [hk, if_pos he, outcome_bind_of_ok (ih hxs rfl)]
    rfl

/-- The first item that cannot be ordered is the reason why there are no keys. -/
theorem keyed_error {pre post : List Value} {x : Value} {f : Failure}
    (h : KeyedBy (c.evaluate body) key kind pre) (he : expected.getD kind = kind)
    (hx : Unordered name c.offset (expected <|> firstKind? key pre) (c.evaluate body x).outcome f) :
    (keyed name c body expected (pre ++ x :: post)).outcome = .error f := by
  induction pre generalizing expected with
  | nil =>
    rw [List.nil_append, keyed]
    generalize ho : (c.evaluate body x).outcome = o at hx
    cases hx with
    | failed => exact outcome_bind_of_error ho
    | noKey hn hs =>
      rw [outcome_bind_of_ok ho, ofValue?_eq_none.mpr ⟨hn, hs⟩]
      rfl
    | otherKind hf hne =>
      obtain rfl : expected = some _ := by simpa [firstKind?] using hf
      rw [outcome_bind_of_ok ho, ofValue?_keyValue]
      dsimp only
      rw [Option.getD_some, if_neg (Ne.symm hne)]
      rfl
  | cons y pre ih =>
    obtain ⟨⟨hy, hk⟩, hpre⟩ := List.forall_mem_cons.mp h
    rw [List.cons_append, keyed, outcome_bind_of_ok hy, ofValue?_keyValue]
    dsimp only
    have hfirst : (expected <|> firstKind? key (y :: pre)) = some kind := by
      rw [h.firstKind?_eq List.mem_cons_self]
      cases expected with
      | none => rfl
      | some => exact congrArg some he
    rw [hfirst] at hx
    rw [hk, if_pos he, outcome_bind_of_error (ih hpre rfl hx)]

theorem ordering_keyed (f : Keyed → Value) (h : KeyedBy evaluate key kind xs) :
    ordering f (xs.map fun x => (key x, x)) = Pure.pure (f (xs.map fun x => (key x, x))) := by
  have hkind : ∀ item ∈ xs.map fun x => (key x, x), item.1.kind = kind := by
    intro item hitem
    obtain ⟨x, hx, rfl⟩ := List.mem_map.mp hitem
    exact (h x hx).2
  rw [ordering, strayKind?_eq_none hkind]

/-- The least of keyed items is what they start with when they are sorted. -/
theorem least_keyed {ys : List Value} (hs : SortedBy key xs ys) :
    least (xs.map fun x => (key x, x)) = ys.head?.getD .null := by
  cases xs with
  | nil =>
    rw [hs.perm.eq_nil]
    rfl
  | cons x xs =>
    obtain ⟨m, hleast, hm⟩ := leastByKey_map x xs
    rw [least, hleast, hs.head?_eq hm]

/-- The greatest of keyed items is the earliest one with the greatest key. -/
theorem greatest_keyed (key : Value → SortKey) (xs : List Value) :
    xs = [] ∧ greatest (xs.map fun x => (key x, x)) = .null ∨
      ∃ m, Foremost (fun x y => (key y).lt (key x)) m xs ∧
        greatest (xs.map fun x => (key x, x)) = m := by
  cases xs with
  | nil => exact .inl ⟨rfl, rfl⟩
  | cons x xs =>
    obtain ⟨m, hgreatest, hm⟩ := greatestByKey_map x xs
    refine .inr ⟨m, hm, ?_⟩
    rw [greatest, hgreatest, Option.getD_some]

end

/-! ### Calls -/

section
variable {env : Env} {name : Text} {s : Text} {f : Keyed → Value} {output : ParameterType}
  {key : Value → SortKey} {kind : Kind} {xs : List Value} {body : Expr}

/-- A call of a function that orders items by the results of an expression. -/
theorem invoke_byKey
    (hf : env.registry.get? name = some ⟨fixed [.one .array, .one .expref] output, byKey s f⟩)
    (steps depth : Nat) (offset : Int) (xs : List Value) (body : Expr) (context : Value) :
    ∃ c : Call, c.offset = offset ∧ c.evaluate = eval env steps depth ∧
      invoke env (steps + 1) depth offset name [.arr xs, .ref body context] =
        (keyed s c body none xs >>= ordering f) := by
  refine ⟨⟨env.source, depth, env.limit, offset, eval env steps depth,
    invoke env steps depth, env.shared⟩, rfl, rfl, ?_⟩
  rw [invoke_eq_body hf rfl]
  simp only [byKey, binary, need_items, need_body, pure_bind]

theorem invoke_byKey_outcome
    (hf : env.registry.get? name = some ⟨fixed [.one .array, .one .expref] output, byKey s f⟩)
    {steps depth : Nat} (h : KeyedBy (eval env steps depth body) key kind xs) (offset : Int)
    (context : Value) :
    (invoke env (steps + 1) depth offset name [.arr xs, .ref body context]).outcome =
      .ok (f (xs.map fun x => (key x, x))) := by
  obtain ⟨c, -, hc, hcall⟩ := invoke_byKey hf steps depth offset xs body context
  rw [← hc] at h
  rw [hcall, outcome_bind_of_ok (keyed_outcome h rfl), ordering_keyed f h]
  rfl

theorem invoke_byKey_error
    (hf : env.registry.get? name = some ⟨fixed [.one .array, .one .expref] output, byKey s f⟩)
    {steps depth : Nat} {pre post : List Value} {x : Value}
    (h : KeyedBy (eval env steps depth body) key kind pre) {offset : Int} {e : Failure}
    (hx : Unordered s offset (firstKind? key pre) (eval env steps depth body x).outcome e)
    (context : Value) :
    (invoke env (steps + 1) depth offset name
      [.arr (pre ++ x :: post), .ref body context]).outcome = .error e := by
  obtain ⟨c, ho, hc, hcall⟩ := invoke_byKey hf steps depth offset (pre ++ x :: post) body context
  rw [← hc] at h hx
  rw [← ho] at hx
  rw [hcall, outcome_bind_of_error (keyed_error h rfl hx)]

end

/-- The functions that order items by the results of an expression. -/
def orderings : List (Text × (Keyed → Value)) :=
  [("sort_by", sorted), ("min_by", least), ("max_by", greatest)]

theorem standard_ordering {name : Text} {f : Keyed → Value} (h : (name, f) ∈ orderings) :
    ∃ output, Registry.standard.get? name =
      some ⟨fixed [.one .array, .one .expref] output, byKey name f⟩ := by
  simp only [orderings, List.mem_cons, List.not_mem_nil, or_false, Prod.mk.injEq] at h
  rcases h with ⟨rfl, rfl⟩ | ⟨rfl, rfl⟩ | ⟨rfl, rfl⟩
  · exact ⟨_, rfl⟩
  · exact ⟨_, rfl⟩
  · exact ⟨_, rfl⟩

/-- Ordering items by the results of an expression.  If the expression gives keys of one kind for
all items, `sort_by` sorts them by these keys, `min_by` gives the first of the sorted items and
`max_by` the earliest item with the greatest key, both null if there are none.  Otherwise there is a
first item that cannot be ordered, and each call fails for its reason. -/
theorem invoke_ordering {env : Env}
    (hr : ∀ p ∈ orderings, env.registry.get? p.1 = Registry.standard.get? p.1)
    (steps depth : Nat) (offset : Int) (xs : List Value) (body : Expr) (context : Value) :
    let evaluate := eval env steps depth body
    let outcome (name : Text) :=
      (invoke env (steps + 1) depth offset name [.arr xs, .ref body context]).outcome
    (∀ key kind, KeyedBy evaluate key kind xs →
      ∃ ys, SortedBy key xs ys ∧ outcome "sort_by" = .ok (.arr ys) ∧
        outcome "min_by" = .ok (ys.head?.getD .null) ∧
        (xs = [] ∧ outcome "max_by" = .ok .null ∨
          ∃ m, Foremost (fun x y => (key y).lt (key x)) m xs ∧ outcome "max_by" = .ok m)) ∧
    ((¬ ∃ key kind, KeyedBy evaluate key kind xs) →
      ∃ pre x post key kind, xs = pre ++ x :: post ∧ KeyedBy evaluate key kind pre ∧
        ∀ p ∈ orderings, ∃ f,
          Unordered p.1 offset (firstKind? key pre) (evaluate x).outcome f ∧
            outcome p.1 = .error f) := by
  intro evaluate outcome
  have hf : ∀ p ∈ orderings, ∃ output, env.registry.get? p.1 =
      some ⟨fixed [.one .array, .one .expref] output, byKey p.1 p.2⟩ := by
    intro p hp
    rw [hr p hp]
    exact standard_ordering hp
  constructor
  · intro key kind hk
    have hok : ∀ p ∈ orderings, outcome p.1 = .ok (p.2 (xs.map fun x => (key x, x))) := by
      intro p hp
      obtain ⟨output, hget⟩ := hf p hp
      exact invoke_byKey_outcome hget hk offset context
    simp only [orderings, List.forall_mem_cons, List.not_mem_nil, false_imp_iff, implies_true,
      and_true] at hok
    obtain ⟨hsort, hmin, hmax⟩ := hok
    have hs := sortedBy_mergeSort key xs
    refine ⟨_, hs, ?_, ?_, ?_⟩
    · rw [hsort, sorted, sortByKeys_map]
    · rw [hmin, least_keyed hs]
    · rw [hmax]
      rcases greatest_keyed key xs with ⟨rfl, hnull⟩ | ⟨m, hm, hgreatest⟩
      · exact .inl ⟨rfl, congrArg Except.ok hnull⟩
      · exact .inr ⟨m, hm, congrArg Except.ok hgreatest⟩
  · intro hk
    obtain ⟨pre, x, post, key, kind, rfl, hpre, hx⟩ := exists_unordered hk
    refine ⟨pre, x, post, key, kind, rfl, hpre, ?_⟩
    intro p hp
    obtain ⟨output, hget⟩ := hf p hp
    obtain ⟨f, hx⟩ := hx p.1 offset
    exact ⟨f, hx, invoke_byKey_error hget hpre hx context⟩

/-- Items of which two have the least and two the greatest key. -/
theorem invoke_ordering_ties :
    let env : Env := ⟨[], .standard, 8, .alike⟩
    let item (k n : Text) : Value := .obj [("k", .str k), ("n", .str n)]
    let xs := [item "b" "1", item "a" "2", item "b" "3", item "a" "4"]
    let key : Value → SortKey := keyOf fun x => Pure.pure (x.getField "k")
    let outcome (name : Text) :=
      (invoke env 2 1 0 name [.arr xs, .ref (.atom (.field "k") 0) .null]).outcome
    (∀ p ∈ orderings, env.registry.get? p.1 = Registry.standard.get? p.1) ∧
      KeyedBy (eval env 1 1 (.atom (.field "k") 0)) key .string xs ∧
      ∃ ys, SortedBy key xs ys ∧ outcome "sort_by" = .ok (.arr ys) ∧
        outcome "min_by" = .ok (ys.head?.getD .null) ∧ outcome "min_by" = .ok (item "a" "2") ∧
        outcome "max_by" = .ok (item "b" "1") := by
  intro env item xs key outcome
  have hr : ∀ p ∈ orderings, env.registry.get? p.1 = Registry.standard.get? p.1 :=
    fun _ _ => rfl
  have hkeyed : KeyedBy (eval env 1 1 (.atom (.field "k") 0)) key .string xs := by
    simp only [KeyedBy, xs, List.forall_mem_cons]
    exact ⟨⟨rfl, rfl⟩, ⟨rfl, rfl⟩, ⟨rfl, rfl⟩, ⟨rfl, rfl⟩, List.forall_mem_nil _⟩
  obtain ⟨ys, hs, hsort, hmin, -⟩ :=
    (invoke_ordering hr 1 1 0 xs (.atom (.field "k") 0) .null).1 key .string hkeyed
  exact ⟨hr, hkeyed, ys, hs, hsort, hmin, rfl, rfl⟩

end Builtin
end JsonQuery
