/-
The parts of values.

What is said of a value is said of its items and of the values of its entries.

* `Data.height_le_heightItems`, `Data.height_le_heightEntries` — the parts of a value are no higher;
* `Data.frames_le_framesItems`, `Data.frames_le_framesEntries` — nor do they need more frames to be
  compared;
* `Data.sameItems_eq`, `Data.within_eq` — arrays and objects are equal if all their parts are;
* `Data.distinctKeysItems_iff`, `Data.distinctKeysEntries_iff` — all parts have distinct keys;
* `Data.mapRefItems_eq_map`, `Data.mapRefEntries_eq_map` — all parts have other bodies;
* `Data.hasRef_arr`, `Data.hasRef_obj` — a value holds a reference if one of its parts does;
* `Data.exists_ofJson` — a value without references is a document.
-/
import JsonQuery.Data.Equality
import JsonQuery.Proofs.Entries

namespace JsonQuery
namespace Data
variable {ρ : Type}

theorem height_le_heightItems {x : Data ρ} {xs : List (Data ρ)} (h : x ∈ xs) :
    height x ≤ heightItems xs := by
  induction xs with
  | nil => cases h
  | cons y xs ih =>
    rw [heightItems]
    rcases List.mem_cons.mp h with rfl | h
    · exact Nat.le_max_left _ _
    · exact Nat.le_trans (ih h) (Nat.le_max_right _ _)

theorem height_le_heightEntries {e : Text × Data ρ} {es : List (Text × Data ρ)} (h : e ∈ es) :
    height e.2 ≤ heightEntries es := by
  induction es with
  | nil => cases h
  | cons f es ih =>
    rw [heightEntries]
    rcases List.mem_cons.mp h with rfl | h
    · exact Nat.le_max_left _ _
    · exact Nat.le_trans (ih h) (Nat.le_max_right _ _)

theorem frames_le_framesItems (body : ρ → Nat) {x : Data ρ} {xs : List (Data ρ)} (h : x ∈ xs) :
    frames body x ≤ framesItems body xs := by
  induction xs with
  | nil => cases h
  | cons y xs ih =>
    rw [framesItems]
    rcases List.mem_cons.mp h with rfl | h
    · exact Nat.le_max_left _ _
    · exact Nat.le_trans (ih h) (Nat.le_max_right _ _)

theorem frames_le_framesEntries (body : ρ → Nat) {e : Text × Data ρ}
    {es : List (Text × Data ρ)} (h : e ∈ es) : frames body e.2 ≤ framesEntries body es := by
  induction es with
  | nil => cases h
  | cons f es ih =>
    rw [framesEntries]
    rcases List.mem_cons.mp h with rfl | h
    · exact Nat.le_max_left _ _
    · exact Nat.le_trans (ih h) (Nat.le_max_right _ _)

theorem sameItems_eq (sameBody : ρ → ρ → Bool) (xs ys : List (Data ρ)) :
    sameItems sameBody xs ys =
      (xs.length == ys.length && (xs.zip ys).all fun p => same sameBody p.1 p.2) := by
  induction xs generalizing ys with
  | nil => cases ys <;> rfl
  | cons x xs ih =>
    cases ys with
    | nil => rfl
    | cons y ys =>
      rw [sameItems, ih, List.length_cons, List.length_cons, List.zip_cons_cons, List.all_cons,
        ← Bool.and_assoc, ← Bool.and_assoc]
      congr 1
      rw [Bool.and_comm]
      congr 1
      rw [Bool.eq_iff_iff]
      simp

/-- Whether an entry finds a value under its key that a test relates to its own. -/
def finds (test : Data ρ → Data ρ → Bool) (fs : List (Text × Data ρ))
    (entry : Text × Data ρ) : Bool :=
  match Entries.get? fs entry.1 with
  | some y => test entry.2 y
  | none => false

theorem within_eq (sameBody : ρ → ρ → Bool) (es fs : List (Text × Data ρ)) :
    within sameBody es fs = es.all (finds (same sameBody) fs) := by
  induction es with
  | nil => rfl
  | cons entry es ih =>
    obtain ⟨k, x⟩ := entry
    rw [within, ih, List.all_cons]
    rfl

theorem distinctKeysItems_iff {xs : List (Data ρ)} :
    DistinctKeysItems xs ↔ ∀ x ∈ xs, DistinctKeys x := by
  induction xs with
  | nil => exact iff_of_true trivial nofun
  | cons x xs ih => rw [DistinctKeysItems, ih, List.forall_mem_cons]

theorem distinctKeysEntries_iff {es : List (Text × Data ρ)} :
    DistinctKeysEntries es ↔ ∀ e ∈ es, DistinctKeys e.2 := by
  induction es with
  | nil => exact iff_of_true trivial nofun
  | cons e es ih => rw [DistinctKeysEntries, ih, List.forall_mem_cons]

mutual

/-- Whether no object in a value has a key twice. -/
def decideDistinctKeys : ∀ x : Data ρ, Decidable x.DistinctKeys
  | .null | .bool _ | .num _ | .str _ => .isTrue trivial
  | .arr items => decideDistinctKeysItems items
  | .obj entries =>
    have := decideDistinctKeysEntries entries
    inferInstanceAs (Decidable ((Entries.keys entries).Nodup ∧ DistinctKeysEntries entries))
  | .ref _ context => decideDistinctKeys context

/-- Whether no object in some items has a key twice. -/
def decideDistinctKeysItems : ∀ xs : List (Data ρ), Decidable (DistinctKeysItems xs)
  | [] => .isTrue trivial
  | x :: xs =>
    have := decideDistinctKeys x
    have := decideDistinctKeysItems xs
    inferInstanceAs (Decidable (DistinctKeys x ∧ DistinctKeysItems xs))

/-- Whether no object in some entries has a key twice. -/
def decideDistinctKeysEntries :
    ∀ es : List (Text × Data ρ), Decidable (DistinctKeysEntries es)
  | [] => .isTrue trivial
  | (_, x) :: es =>
    have := decideDistinctKeys x
    have := decideDistinctKeysEntries es
    inferInstanceAs (Decidable (DistinctKeys x ∧ DistinctKeysEntries es))

end

instance (x : Data ρ) : Decidable x.DistinctKeys :=
  decideDistinctKeys x

/-! ### Values with other bodies -/

variable {σ : Type} {f : ρ → σ}

theorem mapRefItems_eq_map (xs : List (Data ρ)) : mapRefItems f xs = xs.map (mapRef f) := by
  induction xs with
  | nil => rfl
  | cons x xs ih => rw [mapRefItems, ih, List.map_cons]

theorem mapRefEntries_eq_map (es : List (Text × Data ρ)) :
    mapRefEntries f es = es.map fun entry => (entry.1, mapRef f entry.2) := by
  induction es with
  | nil => rfl
  | cons entry es ih => rw [mapRefEntries, ih, List.map_cons]

theorem get?_map (es : List (Text × Data ρ)) (name : Text) :
    Entries.get? (es.map fun entry => (entry.1, mapRef f entry.2)) name =
      (Entries.get? es name).map (mapRef f) := by
  induction es with
  | nil => rfl
  | cons entry es ih =>
    simp only [List.map_cons, Entries.get?, ih]
    split <;> rfl

theorem keys_map (es : List (Text × Data ρ)) :
    Entries.keys (es.map fun entry => (entry.1, mapRef f entry.2)) = Entries.keys es := by
  rw [Entries.keys, List.map_map]
  rfl

mutual

theorem distinctKeys_mapRef : ∀ x : Data ρ, (mapRef f x).DistinctKeys ↔ x.DistinctKeys
  | .null | .bool _ | .num _ | .str _ => Iff.rfl
  | .arr xs => by
    rw [mapRef, DistinctKeys, DistinctKeys, distinctKeysItems_mapRef xs]
  | .obj es => by
    rw [mapRef, DistinctKeys, DistinctKeys, distinctKeysEntries_mapRef es, mapRefEntries_eq_map,
      keys_map]
  | .ref _ x => by rw [mapRef, DistinctKeys, DistinctKeys, distinctKeys_mapRef x]

theorem distinctKeysItems_mapRef :
    ∀ xs : List (Data ρ), DistinctKeysItems (mapRefItems f xs) ↔ DistinctKeysItems xs
  | [] => Iff.rfl
  | x :: xs => by
    rw [mapRefItems, DistinctKeysItems, DistinctKeysItems, distinctKeys_mapRef x,
      distinctKeysItems_mapRef xs]

theorem distinctKeysEntries_mapRef :
    ∀ es : List (Text × Data ρ), DistinctKeysEntries (mapRefEntries f es) ↔ DistinctKeysEntries es
  | [] => Iff.rfl
  | (_, x) :: es => by
    rw [mapRefEntries, DistinctKeysEntries, DistinctKeysEntries, distinctKeys_mapRef x,
      distinctKeysEntries_mapRef es]

end

/-! ### Values without references -/

theorem isNone_itemsToJson? (xs : List (Data ρ)) : (itemsToJson? xs).isNone = xs.any hasRef := by
  induction xs with
  | nil => rfl
  | cons x xs ih =>
    rw [itemsToJson?, List.any_cons, ← ih, hasRef]
    cases toJson? x <;> cases itemsToJson? xs <;> rfl

theorem isNone_entriesToJson? (es : List (Text × Data ρ)) :
    (entriesToJson? es).isNone = es.any fun entry => hasRef entry.2 := by
  induction es with
  | nil => rfl
  | cons entry es ih =>
    rw [entriesToJson?, List.any_cons, ← ih, hasRef]
    cases toJson? entry.2 <;> cases entriesToJson? es <;> rfl

theorem hasRef_arr (xs : List (Data ρ)) : hasRef (.arr xs) = xs.any hasRef := by
  rw [hasRef, toJson?, Option.isNone_map, isNone_itemsToJson?]

theorem hasRef_obj (es : List (Text × Data ρ)) :
    hasRef (.obj es) = es.any fun entry => hasRef entry.2 := by
  rw [hasRef, toJson?, Option.isNone_map, isNone_entriesToJson?]

theorem hasRef_ofJson (j : Json) : hasRef (ofJson j : Data ρ) = false := by
  rw [hasRef, ofJson, toJson?_mapRef]
  rfl

mutual

theorem ofJson_toJson? : ∀ {x : Data ρ} {j : Json}, x.toJson? = some j → ofJson j = x
  | .null, _, h | .bool _, _, h | .num _, _, h | .str _, _, h => by
    cases h
    rfl
  | .arr xs, _, h => by
    obtain ⟨js, hjs, rfl⟩ := Option.map_eq_some_iff.mp h
    rw [ofJson, mapRef, itemsOfJson_toJson? hjs]
  | .obj es, _, h => by
    obtain ⟨js, hjs, rfl⟩ := Option.map_eq_some_iff.mp h
    rw [ofJson, mapRef, entriesOfJson_toJson? hjs]
  | .ref _ _, _, h => by cases h

theorem itemsOfJson_toJson? :
    ∀ {xs : List (Data ρ)} {js : List Json}, itemsToJson? xs = some js →
      mapRefItems Empty.elim js = xs
  | [], _, h => by
    cases h
    rfl
  | x :: xs, _, h => by
    obtain ⟨j, hj, h⟩ := Option.bind_eq_some_iff.mp h
    obtain ⟨js, hjs, h⟩ := Option.bind_eq_some_iff.mp h
    cases h
    have hx : mapRef Empty.elim j = x := ofJson_toJson? hj
    rw [mapRefItems, hx, itemsOfJson_toJson? hjs]

theorem entriesOfJson_toJson? :
    ∀ {es : List (Text × Data ρ)} {js : List (Text × Json)}, entriesToJson? es = some js →
      mapRefEntries Empty.elim js = es
  | [], _, h => by
    cases h
    rfl
  | (k, x) :: es, _, h => by
    obtain ⟨j, hj, h⟩ := Option.bind_eq_some_iff.mp h
    obtain ⟨js, hjs, h⟩ := Option.bind_eq_some_iff.mp h
    cases h
    have hx : mapRef Empty.elim j = x := ofJson_toJson? hj
    rw [mapRefEntries, hx, entriesOfJson_toJson? hjs]

end

/-- A value without references is a document among the values. -/
theorem exists_ofJson {x : Data ρ} (h : x.hasRef = false) : ∃ j : Json, ofJson j = x := by
  rw [hasRef, Option.isNone_eq_false_iff] at h
  obtain ⟨j, hj⟩ := Option.isSome_iff_exists.mp h
  exact ⟨j, ofJson_toJson? hj⟩

end Data
end JsonQuery
