/-
What is read has distinct keys.

Entries are put into a map in the order in which they are read, so no object of a document has a key
twice, whatever the text repeats.

* `Reader.value_distinct` — a document that is read has distinct keys;
* `Json.distinctKeys_of_read` — and so has its value.
-/
import JsonQuery.Json.Reader
import JsonQuery.Proofs.Data
import JsonQuery.Proofs.Grammar.Source

namespace JsonQuery

open Grammar

namespace Document

mutual

/-- No object in a document has a key twice. -/
def DistinctKeys : Document → Prop
  | .arr items => DistinctKeysItems items
  | .obj entries => (Entries.keys entries).Nodup ∧ DistinctKeysEntries entries
  | _ => True

/-- No object in some items has a key twice. -/
def DistinctKeysItems : List Document → Prop
  | [] => True
  | d :: ds => DistinctKeys d ∧ DistinctKeysItems ds

/-- No object in some entries has a key twice. -/
def DistinctKeysEntries : List (Text × Document) → Prop
  | [] => True
  | (_, d) :: ds => DistinctKeys d ∧ DistinctKeysEntries ds

end

theorem distinctKeysEntries_insert {es : List (Text × Document)} (h : DistinctKeysEntries es)
    (k : Text) {d : Document} (hd : d.DistinctKeys) :
    DistinctKeysEntries (Entries.insert k d es) := by
  induction es with
  | nil => exact ⟨hd, trivial⟩
  | cons entry es ih =>
    rw [Entries.insert]
    split
    · exact ⟨hd, h.2⟩
    · exact ⟨h.1, ih h.2⟩

theorem distinctKeysEntries_update {es fs : List (Text × Document)} (h : DistinctKeysEntries es)
    (hf : DistinctKeysEntries fs) : DistinctKeysEntries (Entries.update es fs) := by
  induction fs generalizing es with
  | nil => exact h
  | cons entry fs ih => exact ih (distinctKeysEntries_insert h entry.1 hf.1) hf.2

theorem keys_entriesToJson {es : List (Text × Document)} {fs : List (Text × Json)}
    (h : entriesToJson es = .ok fs) : Entries.keys fs = Entries.keys es := by
  induction es generalizing fs with
  | nil =>
    cases h
    rfl
  | cons entry es ih =>
    obtain ⟨x, -, h⟩ := bind_eq_ok.mp h
    obtain ⟨xs, hxs, h⟩ := bind_eq_ok.mp h
    cases h
    rw [Entries.keys_cons, ih hxs]
    rfl

mutual

theorem distinctKeys_toJson : ∀ {d : Document} {j : Json}, d.DistinctKeys → d.toJson = .ok j →
    j.DistinctKeys
  | .null, _, _, h | .bool _, _, _, h | .str _, _, _, h => by
    cases h
    trivial
  | .num n, _, _, h => by
    obtain ⟨x, -, rfl⟩ := map_eq_ok.mp h
    trivial
  | .arr items, _, hd, h => by
    obtain ⟨xs, hxs, rfl⟩ := map_eq_ok.mp h
    exact distinctKeys_itemsToJson hd hxs
  | .obj entries, _, hd, h => by
    obtain ⟨xs, hxs, rfl⟩ := map_eq_ok.mp h
    exact ⟨keys_entriesToJson hxs ▸ hd.1, distinctKeys_entriesToJson hd.2 hxs⟩

theorem distinctKeys_itemsToJson : ∀ {ds : List Document} {js : List Json},
    DistinctKeysItems ds → itemsToJson ds = .ok js → Data.DistinctKeysItems js
  | [], _, _, h => by
    cases h
    trivial
  | d :: ds, _, hd, h => by
    obtain ⟨x, hx, h⟩ := bind_eq_ok.mp h
    obtain ⟨xs, hxs, h⟩ := bind_eq_ok.mp h
    cases h
    exact ⟨distinctKeys_toJson hd.1 hx, distinctKeys_itemsToJson hd.2 hxs⟩

theorem distinctKeys_entriesToJson : ∀ {es : List (Text × Document)} {fs : List (Text × Json)},
    DistinctKeysEntries es → entriesToJson es = .ok fs → Data.DistinctKeysEntries fs
  | [], _, _, h => by
    cases h
    trivial
  | (k, d) :: es, _, hd, h => by
    obtain ⟨x, hx, h⟩ := bind_eq_ok.mp h
    obtain ⟨xs, hxs, h⟩ := bind_eq_ok.mp h
    cases h
    exact ⟨distinctKeys_toJson hd.1 hx, distinctKeys_entriesToJson hd.2 hxs⟩

end

end Document

namespace Reader

/-- A step that only gives documents with distinct keys. -/
def Distinct (step : Step Document) : Prop :=
  ∀ ⦃t d rest⦄, step t = .ok (d, rest) → d.DistinctKeys

variable {step : Step Document}

theorem items_distinct (h : Distinct step) {fuel : Nat} {t rest : Text} {ds : List Document}
    (hi : items step fuel t = .ok (ds, rest)) : Document.DistinctKeysItems ds := by
  induction fuel generalizing t ds with
  | zero => cases hi
  | succ fuel ih =>
    obtain ⟨⟨d, mid⟩, hd, hi⟩ := bind_eq_ok.mp hi
    dsimp only at hi
    split at hi
    · cases hi
      exact ⟨h hd, trivial⟩
    · obtain ⟨⟨ds', rest'⟩, hds, hi⟩ := bind_eq_ok.mp hi
      cases hi
      exact ⟨h hd, ih hds⟩
    · cases hi

theorem entry_distinct (h : Distinct step) {t rest : Text} {e : Text × Document}
    (he : entry step t = .ok (e, rest)) : e.2.DistinctKeys := by
  unfold entry at he
  split at he
  · obtain ⟨⟨key, mid⟩, -, he⟩ := bind_eq_ok.mp he
    dsimp only at he
    split at he
    · obtain ⟨⟨d, rest'⟩, hd, he⟩ := bind_eq_ok.mp he
      cases he
      exact h hd
    · cases he
  · cases he

theorem entries_distinct (h : Distinct step) {fuel : Nat} {t rest : Text}
    {es : List (Text × Document)} (he : entries step fuel t = .ok (es, rest)) :
    Document.DistinctKeysEntries es := by
  induction fuel generalizing t es with
  | zero => cases he
  | succ fuel ih =>
    obtain ⟨⟨e, mid⟩, hd, he⟩ := bind_eq_ok.mp he
    dsimp only at he
    split at he
    · cases he
      exact ⟨entry_distinct h hd, trivial⟩
    · obtain ⟨⟨es', rest'⟩, hes, he⟩ := bind_eq_ok.mp he
      cases he
      exact ⟨entry_distinct h hd, ih hes⟩
    · cases he

theorem array_distinct (h : Distinct step) (bound : Nat) : Distinct (array bound step) := by
  intro t d rest ha
  unfold array at ha
  split at ha
  · cases ha
    trivial
  · obtain ⟨⟨ds, rest'⟩, hds, ha⟩ := bind_eq_ok.mp ha
    cases ha
    exact items_distinct h hds

theorem object_distinct (h : Distinct step) (bound : Nat) : Distinct (object bound step) := by
  intro t d rest ho
  unfold object at ho
  split at ho
  · cases ho
    exact ⟨.nil, trivial⟩
  · obtain ⟨⟨es, rest'⟩, hes, ho⟩ := bind_eq_ok.mp ho
    cases ho
    exact ⟨Entries.nodup_keys_ofList es,
      Document.distinctKeysEntries_update trivial (entries_distinct h hes)⟩

theorem mem_of_takeName {α : Type} {table : List (String × α)} {t rest : Text} {name : String}
    {x : α} (h : takeName table t = some (name, x, rest)) : (name, x) ∈ table := by
  obtain ⟨⟨name', x'⟩, hm, h⟩ := List.exists_of_findSome?_eq_some h
  simp only [Option.ite_none_right_eq_some, Option.some.injEq, Prod.mk.injEq] at h
  obtain ⟨-, rfl, rfl, -⟩ := h
  exact hm

theorem scalar_distinct (allowConstants : Bool) : Distinct (scalar allowConstants) := by
  intro t d rest hs
  unfold scalar at hs
  split at hs
  · next name x rest' hn =>
    cases hs
    have hm := mem_of_takeName hn
    simp only [names, List.mem_cons, List.not_mem_nil, or_false, Prod.mk.injEq] at hm
    rcases hm with ⟨-, rfl⟩ | ⟨-, rfl⟩ | ⟨-, rfl⟩ <;> trivial
  · split at hs
    · split at hs
      · cases hs
        trivial
      · cases hs
    · obtain ⟨⟨n, rest'⟩, -, hs⟩ := bind_eq_ok.mp hs
      cases hs
      trivial

/-- A document that is read has distinct keys. -/
theorem value_distinct (allowConstants : Bool) (bound nesting : Nat) :
    Distinct (value allowConstants bound nesting) := by
  induction nesting with
  | zero =>
    intro t d rest hv
    unfold value at hv
    split at hv
    · obtain ⟨⟨s, rest'⟩, -, hv⟩ := map_eq_ok.mp hv
      cases hv
      trivial
    · cases hv
    · cases hv
    · contradiction
    · contradiction
    · exact scalar_distinct _ hv
  | succ nesting ih =>
    intro t d rest hv
    unfold value at hv
    split at hv
    · obtain ⟨⟨s, rest'⟩, -, hv⟩ := map_eq_ok.mp hv
      cases hv
      trivial
    · contradiction
    · contradiction
    · next h =>
      cases h
      exact array_distinct ih bound hv
    · next h =>
      cases h
      exact object_distinct ih bound hv
    · exact scalar_distinct _ hv

end Reader

theorem Document.distinctKeys_of_read {allowConstants : Bool} {t : Text} {d : Document}
    (h : Document.read allowConstants t = .ok d) : d.DistinctKeys := by
  have h := mapError_eq_ok.mp h
  unfold Reader.document at h
  split at h
  · cases h
  · obtain ⟨⟨d', rest⟩, hv, h⟩ := bind_eq_ok.mp h
    dsimp only at h
    split at h
    · cases h
      exact Reader.value_distinct _ _ _ hv
    · cases h

/-- The value of a text has distinct keys. -/
theorem Json.distinctKeys_of_read {t : Text} {j : Json} (h : Json.read t = .ok j) :
    j.DistinctKeys := by
  obtain ⟨d, hd, h⟩ := bind_eq_ok.mp h
  exact Document.distinctKeys_toJson (Document.distinctKeys_of_read hd) (mapError_eq_ok.mp h)

end JsonQuery
