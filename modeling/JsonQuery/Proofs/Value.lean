/-
Values without the offsets of the expressions in them.

Values may hold references to expressions, whose offsets tell where they stand in a source.
`Value.bare` sets them to zero, and nothing that queries ask of a value depends on them.

* `Data.same_mapRef`, `Data.height_mapRef` — what does not depend on the bodies of references;
* `Expr.equal?_bare`, `Data.equal?_mapRef` — nor do comparisons;
* `Value.same_bare`, `Value.render_bare` — neither equality nor the JSON text sees offsets.
-/
import JsonQuery.Equality
import JsonQuery.Json.Writer
import JsonQuery.Proofs.Data

namespace JsonQuery
namespace Expr

mutual

theorem same_bare : ∀ a b : Expr, same a.bare b.bare = same a b
  | .atom _ _, b => by cases b <;> simp only [bare, same]
  | .unary _ a _, b => by
    cases b <;> simp only [bare, same]
    rw [same_bare a]
  | .binary _ a a' _, b => by
    cases b <;> simp only [bare, same]
    rw [same_bare a, same_bare a']
  | .filter a p a' _, b => by
    cases b <;> simp only [bare, same]
    rw [same_bare a, same_bare p, same_bare a']
  | .list as _, b => by
    cases b <;> simp only [bare, same]
    rw [sameList_bare as]
  | .hash ps _, b => by
    cases b <;> simp only [bare, same]
    rw [samePairs_bare ps]
  | .call _ as _, b => by
    cases b <;> simp only [bare, same]
    rw [sameList_bare as]

theorem sameList_bare : ∀ as bs : List Expr, sameList (bareList as) (bareList bs) = sameList as bs
  | [], bs => by cases bs <;> simp only [bareList, sameList]
  | a :: as, bs => by
    cases bs <;> simp only [bareList, sameList]
    rw [same_bare a, sameList_bare as]

theorem samePairs_bare :
    ∀ ps qs : List (Text × Expr), samePairs (barePairs ps) (barePairs qs) = samePairs ps qs
  | [], qs => by cases qs <;> simp only [barePairs, samePairs]
  | (_, a) :: ps, qs => by
    cases qs <;> simp only [barePairs, samePairs]
    rw [same_bare a, samePairs_bare ps]

end

mutual

/-- Comparisons do not see offsets. -/
theorem equal?_bare (shared : Sharing) : ∀ (a b : Expr) (n : Nat),
    equal? shared n a.bare b.bare = equal? shared n a b
  | .atom a o, b, n => by
    rw [equal?.eq_def, equal?.eq_def, shared.tree_bare]
    cases b <;> rfl
  | .unary op a o, b, n => by
    rw [equal?.eq_def, equal?.eq_def, shared.tree_bare]
    cases b <;> simp only [bare, equal?_bare shared a]
  | .binary op a a' o, b, n => by
    rw [equal?.eq_def, equal?.eq_def, shared.tree_bare]
    cases b <;> simp only [bare, equal?_bare shared a, equal?_bare shared a']
  | .filter a p a' o, b, n => by
    rw [equal?.eq_def, equal?.eq_def, shared.tree_bare]
    cases b <;> simp only [bare, equal?_bare shared a, equal?_bare shared p,
      equal?_bare shared a']
  | .list as o, b, n => by
    rw [equal?.eq_def, equal?.eq_def, shared.tree_bare]
    cases b <;> simp only [bare, equalList?_bare shared as]
  | .hash ps o, b, n => by
    rw [equal?.eq_def, equal?.eq_def, shared.tree_bare]
    cases b <;> simp only [bare, equalPairs?_bare shared ps]
  | .call f as o, b, n => by
    rw [equal?.eq_def, equal?.eq_def, shared.tree_bare]
    cases b <;> simp only [bare, equalList?_bare shared as]

theorem equalList?_bare (shared : Sharing) : ∀ (as bs : List Expr) (n : Nat),
    equalList? shared n (bareList as) (bareList bs) = equalList? shared n as bs
  | [], bs, n => by cases bs <;> simp only [bareList, equalList?]
  | a :: as, bs, n => by
    cases bs <;> simp only [bareList, equalList?, equal?_bare shared a, equalList?_bare shared as]

theorem equalPairs?_bare (shared : Sharing) : ∀ (ps qs : List (Text × Expr)) (n : Nat),
    equalPairs? shared n (barePairs ps) (barePairs qs) = equalPairs? shared n ps qs
  | [], qs, n => by cases qs <;> simp only [barePairs, equalPairs?]
  | (_, a) :: ps, qs, n => by
    cases qs <;> simp only [barePairs, equalPairs?, equal?_bare shared a,
      equalPairs?_bare shared ps]

end

end Expr

namespace Data
variable {ρ σ : Type} {f : ρ → σ}

theorem length_mapRefEntries (es : List (Text × Data ρ)) :
    (mapRefEntries f es).length = es.length := by
  rw [mapRefEntries_eq_map, List.length_map]

mutual

/-- Equality of values stays the same under a change of bodies that their equality does not
see. -/
theorem same_mapRef {p : ρ → ρ → Bool} {q : σ → σ → Bool} (h : ∀ b c, q (f b) (f c) = p b c) :
    ∀ x y : Data ρ, same q (mapRef f x) (mapRef f y) = same p x y
  | .null, y | .bool _, y | .num _, y | .str _, y => by cases y <;> simp only [mapRef, same]
  | .arr xs, y => by
    cases y <;> simp only [mapRef, same]
    rw [sameItems_mapRef h xs]
  | .obj es, y => by
    cases y <;> simp only [mapRef, same]
    rw [within_mapRef h es, length_mapRefEntries, length_mapRefEntries]
  | .ref b x, y => by
    cases y <;> simp only [mapRef, same]
    rw [h, same_mapRef h x]

theorem sameItems_mapRef {p : ρ → ρ → Bool} {q : σ → σ → Bool} (h : ∀ b c, q (f b) (f c) = p b c) :
    ∀ xs ys : List (Data ρ), sameItems q (mapRefItems f xs) (mapRefItems f ys) = sameItems p xs ys
  | [], ys => by cases ys <;> simp only [mapRefItems, sameItems]
  | x :: xs, ys => by
    cases ys <;> simp only [mapRefItems, sameItems]
    rw [same_mapRef h x, sameItems_mapRef h xs]

theorem within_mapRef {p : ρ → ρ → Bool} {q : σ → σ → Bool} (h : ∀ b c, q (f b) (f c) = p b c) :
    ∀ es fs : List (Text × Data ρ),
      within q (mapRefEntries f es) (mapRefEntries f fs) = within p es fs
  | [], _ => by simp only [mapRefEntries, within]
  | (k, x) :: es, fs => by
    simp only [mapRefEntries, within]
    rw [within_mapRef h es, mapRefEntries_eq_map fs, get?_map]
    cases Entries.get? fs k with
    | none => rfl
    | some y =>
      simp only [Option.map_some]
      rw [same_mapRef h x]

end

/-- The sharing of two kinds of values and the comparisons of their bodies do not see a change of
bodies. -/
structure Unseen (f : ρ → σ) (one : Data ρ → Data ρ → Bool) (one' : Data σ → Data σ → Bool)
    (bodies : Nat → ρ → ρ → Option Bool) (bodies' : Nat → σ → σ → Option Bool) : Prop where
  one : ∀ x y, one' (mapRef f x) (mapRef f y) = one x y
  bodies : ∀ n b c, bodies' n (f b) (f c) = bodies n b c

section
variable {one : Data ρ → Data ρ → Bool} {one' : Data σ → Data σ → Bool}
  {bodies : Nat → ρ → ρ → Option Bool} {bodies' : Nat → σ → σ → Option Bool}

mutual

/-- Nor do comparisons of values then see it. -/
theorem equal?_mapRef (h : Unseen f one one' bodies bodies') : ∀ (x y : Data ρ) (n : Nat),
    equal? one' bodies' n (mapRef f x) (mapRef f y) = equal? one bodies n x y
  | .null, y, n | .bool _, y, n | .num _, y, n | .str _, y, n => by
    rw [equal?.eq_def, equal?.eq_def, h.one]
    cases y <;> rfl
  | .arr xs, y, n => by
    rw [equal?.eq_def, equal?.eq_def, h.one]
    cases y <;> simp only [mapRef, equalItems?_mapRef h xs]
  | .obj es, y, n => by
    rw [equal?.eq_def, equal?.eq_def, h.one]
    cases y <;> simp only [mapRef, equalWithin?_mapRef h es, length_mapRefEntries]
  | .ref b x, y, n => by
    rw [equal?.eq_def, equal?.eq_def, h.one]
    cases y <;> simp only [mapRef, h.bodies, equal?_mapRef h x]

theorem equalItems?_mapRef (h : Unseen f one one' bodies bodies') :
    ∀ (xs ys : List (Data ρ)) (n : Nat),
      equalItems? one' bodies' n (mapRefItems f xs) (mapRefItems f ys) =
        equalItems? one bodies n xs ys
  | [], ys, n => by cases ys <;> simp only [mapRefItems, equalItems?]
  | x :: xs, ys, n => by
    cases ys <;> simp only [mapRefItems, equalItems?, equal?_mapRef h x, equalItems?_mapRef h xs]

theorem equalWithin?_mapRef (h : Unseen f one one' bodies bodies') :
    ∀ (es fs : List (Text × Data ρ)) (n : Nat),
      equalWithin? one' bodies' n (mapRefEntries f es) (mapRefEntries f fs) =
        equalWithin? one bodies n es fs
  | [], _, n => by simp only [mapRefEntries, equalWithin?]
  | (k, x) :: es, fs, n => by
    simp only [mapRefEntries, equalWithin?, equalWithin?_mapRef h es]
    rw [mapRefEntries_eq_map fs, get?_map]
    cases Entries.get? fs k with
    | none => rfl
    | some y => simp only [Option.map_some, equal?_mapRef h x]

end

end

mutual

theorem height_mapRef : ∀ x : Data ρ, height (mapRef f x) = height x
  | .null | .bool _ | .num _ | .str _ | .ref _ _ => rfl
  | .arr xs => by rw [mapRef, height, height, heightItems_mapRef xs]
  | .obj es => by rw [mapRef, height, height, heightEntries_mapRef es]

theorem heightItems_mapRef : ∀ xs : List (Data ρ), heightItems (mapRefItems f xs) = heightItems xs
  | [] => rfl
  | x :: xs => by
    rw [mapRefItems, heightItems, heightItems, height_mapRef x, heightItems_mapRef xs]

theorem heightEntries_mapRef :
    ∀ es : List (Text × Data ρ), heightEntries (mapRefEntries f es) = heightEntries es
  | [] => rfl
  | (_, x) :: es => by
    rw [mapRefEntries, heightEntries, heightEntries, height_mapRef x, heightEntries_mapRef es]

end

mutual

theorem toJson?_of_mapRef : ∀ x : Data ρ, toJson? (mapRef f x) = toJson? x
  | .null | .bool _ | .num _ | .str _ | .ref _ _ => rfl
  | .arr xs => by rw [mapRef, toJson?, toJson?, itemsToJson?_mapRef xs]
  | .obj es => by rw [mapRef, toJson?, toJson?, entriesToJson?_mapRef es]

theorem itemsToJson?_mapRef :
    ∀ xs : List (Data ρ), itemsToJson? (mapRefItems f xs) = itemsToJson? xs
  | [] => rfl
  | x :: xs => by
    rw [mapRefItems, itemsToJson?, itemsToJson?, toJson?_of_mapRef x, itemsToJson?_mapRef xs]

theorem entriesToJson?_mapRef :
    ∀ es : List (Text × Data ρ), entriesToJson? (mapRefEntries f es) = entriesToJson? es
  | [] => rfl
  | (_, x) :: es => by
    rw [mapRefEntries, entriesToJson?, entriesToJson?, toJson?_of_mapRef x,
      entriesToJson?_mapRef es]

end

end Data

namespace Value

@[simp] theorem bare_null : bare .null = .null := rfl

@[simp] theorem bare_bool (b : Bool) : bare (.bool b) = .bool b := rfl

@[simp] theorem bare_num (x : Number) : bare (.num x) = .num x := rfl

@[simp] theorem bare_str (t : Text) : bare (.str t) = .str t := rfl

@[simp] theorem bare_arr (xs : List Value) : bare (.arr xs) = .arr (xs.map bare) :=
  congrArg Data.arr (Data.mapRefItems_eq_map xs)

/-- Entries whose values are bare. -/
def bareEntries (es : List (Text × Value)) : List (Text × Value) :=
  es.map fun entry => (entry.1, bare entry.2)

@[simp] theorem bare_obj (es : List (Text × Value)) : bare (.obj es) = .obj (bareEntries es) :=
  congrArg Data.obj (Data.mapRefEntries_eq_map es)

@[simp] theorem bare_ref (body : Expr) (context : Value) :
    bare (.ref body context) = .ref body.bare (bare context) := rfl

@[simp] theorem bareEntries_cons (k : Text) (x : Value) (es : List (Text × Value)) :
    bareEntries ((k, x) :: es) = (k, bare x) :: bareEntries es := rfl

/-- Equality of values does not see offsets. -/
theorem same_bare (x y : Value) : Value.same x.bare y.bare = Value.same x y :=
  Data.same_mapRef Expr.same_bare x y

/-- Nor do comparisons of values. -/
theorem equal?_bare (shared : Sharing) (x y : Value) :
    Value.equal? shared x.bare y.bare = Value.equal? shared x y :=
  Data.equal?_mapRef ⟨shared.value_bare, fun n b c => Expr.equal?_bare shared b c n⟩ x y stackFrames

theorem kind_bare (x : Value) : x.bare.kind = x.kind := by
  cases x <;> rfl

theorem isNull_bare (x : Value) : x.bare.isNull = x.isNull := by
  cases x <;> rfl

theorem toJson?_bare (x : Value) : x.bare.toJson? = x.toJson? :=
  Data.toJson?_of_mapRef x

theorem height_bare (x : Value) : x.bare.height = x.height :=
  Data.height_mapRef x

theorem render_bare (indent : Option Nat) (x : Value) : x.bare.render indent = x.render indent := by
  rw [Data.render, Data.render, kind_bare, height_bare, toJson?_bare]

end Value
end JsonQuery
