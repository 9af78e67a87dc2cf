/-
Values without the signs of their zeros.

* `Json.unsigned` — a value whose zeros have lost their sign;
* `Json.toDocument` — a value as a document, which is that value again, save for these signs;
* `Json.same_unsigned` — which do not count.
-/
import JsonQuery.Proofs.Data
import JsonQuery.Proofs.Number.Write

namespace JsonQuery

/-! ### The document of a value -/

namespace Json

mutual

/-- A value as a document: its numbers are numerals. -/
def toDocument : Json → Document
  | .null => .null
  | .bool b => .bool b
  | .num x => .num x.toNumeral
  | .str t => .str t
  | .arr items => .arr (itemsToDocument items)
  | .obj entries => .obj (entriesToDocument entries)
  | .ref body _ => body.elim

/-- Some items as those of a document. -/
def itemsToDocument : List Json → List Document
  | [] => []
  | x :: xs => toDocument x :: itemsToDocument xs

/-- Some entries as those of a document. -/
def entriesToDocument : List (Text × Json) → List (Text × Document)
  | [] => []
  | (k, x) :: es => (k, toDocument x) :: entriesToDocument es

end

mutual

/-- A value whose zeros have lost their sign. -/
def unsigned : Json → Json
  | .num x => .num x.unsigned
  | .arr items => .arr (unsignedItems items)
  | .obj entries => .obj (unsignedEntries entries)
  | v => v

/-- Items whose zeros have lost their sign. -/
def unsignedItems : List Json → List Json
  | [] => []
  | x :: xs => unsigned x :: unsignedItems xs

/-- Entries whose zeros have lost their sign. -/
def unsignedEntries : List (Text × Json) → List (Text × Json)
  | [] => []
  | (k, x) :: es => (k, unsigned x) :: unsignedEntries es

end

mutual

theorem toJson_toDocument : ∀ v : Json, v.toDocument.toJson = .ok v.unsigned
  | .null | .bool _ | .str _ => rfl
  | .num x => by rw [toDocument, Document.toJson, x.toNumber_toNumeral, unsigned]; rfl
  | .arr xs => by rw [toDocument, Document.toJson, itemsToJson_toDocument xs, unsigned]; rfl
  | .obj es => by rw [toDocument, Document.toJson, entriesToJson_toDocument es, unsigned]; rfl
  | .ref body _ => body.elim

theorem itemsToJson_toDocument :
    ∀ xs : List Json, Document.itemsToJson (itemsToDocument xs) = .ok (unsignedItems xs)
  | [] => rfl
  | x :: xs => by
    rw [itemsToDocument, Document.itemsToJson, toJson_toDocument x, itemsToJson_toDocument xs,
      unsignedItems]
    rfl

theorem entriesToJson_toDocument :
    ∀ es : List (Text × Json),
      Document.entriesToJson (entriesToDocument es) = .ok (unsignedEntries es)
  | [] => rfl
  | (k, x) :: es => by
    rw [entriesToDocument, Document.entriesToJson, toJson_toDocument x,
      entriesToJson_toDocument es, unsignedEntries]
    rfl

end

theorem keys_entriesToDocument (es : List (Text × Json)) :
    Entries.keys (entriesToDocument es) = Entries.keys es := by
  induction es with
  | nil => rfl
  | cons e es ih => rw [entriesToDocument, Entries.keys_cons, Entries.keys_cons, ih]

theorem keys_unsignedEntries (es : List (Text × Json)) :
    Entries.keys (unsignedEntries es) = Entries.keys es := by
  induction es with
  | nil => rfl
  | cons e es ih => rw [unsignedEntries, Entries.keys_cons, Entries.keys_cons, ih]

theorem mem_unsignedEntries {e : Text × Json} {es : List (Text × Json)} (h : e ∈ es) :
    (e.1, unsigned e.2) ∈ unsignedEntries es := by
  induction es with
  | nil => cases h
  | cons f es ih =>
    rw [unsignedEntries]
    rcases List.mem_cons.mp h with rfl | h
    · exact List.mem_cons_self
    · exact List.mem_cons_of_mem _ (ih h)

theorem length_unsignedEntries (es : List (Text × Json)) :
    (unsignedEntries es).length = es.length := by
  induction es with
  | nil => rfl
  | cons e es ih => rw [unsignedEntries, List.length_cons, List.length_cons, ih]

mutual

theorem distinctKeys_unsigned : ∀ v : Json, v.DistinctKeys → v.unsigned.DistinctKeys
  | .null, h | .bool _, h | .num _, h | .str _, h => h
  | .arr xs, h => by
    rw [Data.DistinctKeys] at h
    rw [unsigned, Data.DistinctKeys]
    exact distinctKeysItems_unsigned xs h
  | .obj es, h => by
    rw [Data.DistinctKeys] at h
    rw [unsigned, Data.DistinctKeys, keys_unsignedEntries]
    exact ⟨h.1, distinctKeysEntries_unsigned es h.2⟩
  | .ref body _, _ => body.elim

theorem distinctKeysItems_unsigned : ∀ xs : List Json, Data.DistinctKeysItems xs →
    Data.DistinctKeysItems (unsignedItems xs)
  | [], h => h
  | x :: xs, h => by
    rw [Data.DistinctKeysItems] at h
    rw [unsignedItems, Data.DistinctKeysItems]
    exact ⟨distinctKeys_unsigned x h.1, distinctKeysItems_unsigned xs h.2⟩

theorem distinctKeysEntries_unsigned : ∀ es : List (Text × Json), Data.DistinctKeysEntries es →
    Data.DistinctKeysEntries (unsignedEntries es)
  | [], h => h
  | (_, x) :: es, h => by
    rw [Data.DistinctKeysEntries] at h
    rw [unsignedEntries, Data.DistinctKeysEntries]
    exact ⟨distinctKeys_unsigned x h.1, distinctKeysEntries_unsigned es h.2⟩

end

mutual

/-- The signs of zeros do not count. -/
theorem same_unsigned : ∀ v : Json, v.DistinctKeys → v.same v.unsigned = true
  | .null, _ => rfl
  | .bool b, _ => beq_self_eq_true b
  | .num x, _ => x.same_unsigned
  | .str t, _ => beq_self_eq_true t
  | .arr xs, hk => by
    rw [Data.DistinctKeys] at hk
    rw [unsigned, Json.same, Data.same]
    exact sameItems_unsigned xs hk
  | .obj es, hk => by
    rw [Data.DistinctKeys] at hk
    rw [unsigned, Json.same, Data.same, length_unsignedEntries, beq_self_eq_true, Bool.true_and,
      Data.within_eq, List.all_eq_true]
    intro e he
    have hg := Entries.get?_of_mem (by rw [keys_unsignedEntries]; exact hk.1)
      (mem_unsignedEntries he)
    rw [Data.finds, hg]
    exact sameEntries_unsigned es hk.2 e he
  | .ref body _, _ => body.elim

theorem sameItems_unsigned : ∀ xs : List Json, Data.DistinctKeysItems xs →
    Data.sameItems (fun body _ => body.elim) xs (unsignedItems xs) = true
  | [], _ => rfl
  | x :: xs, hk => by
    rw [Data.DistinctKeysItems] at hk
    rw [unsignedItems, Data.sameItems, Bool.and_eq_true]
    exact ⟨same_unsigned x hk.1, sameItems_unsigned xs hk.2⟩

theorem sameEntries_unsigned : ∀ es : List (Text × Json), Data.DistinctKeysEntries es →
    ∀ e ∈ es, e.2.same e.2.unsigned = true
  | [], _ => nofun
  | (_, x) :: es, hk => by
    rw [Data.DistinctKeysEntries] at hk
    exact List.forall_mem_cons.mpr ⟨same_unsigned x hk.1, sameEntries_unsigned es hk.2⟩

end

end Json
end JsonQuery
