/-
Values without references and their JSON text.

A value without references is a document, and is written as one.  Its text gives it back: an equal
value, with the keys of every object in the same order, which is written as before.  Only the sign
of a zero is lost, and that neither counts nor is written.

* `Data.keyLists` — the keys of every object in a value, in their order;
* `Data.render_ofJson`, `Data.render_tooDeep` — the text of a document among the values;
* `Json.write_unsigned`, `Json.keyLists_unsigned` — the signs of zeros are not written;
* `read_render` — values are read back from their texts.
-/
import JsonQuery.Proofs.Data.Reorder
import JsonQuery.Proofs.Json.Distinct
import JsonQuery.Proofs.Json.RoundTrip
import JsonQuery.Proofs.Value

namespace JsonQuery

namespace Data
variable {ρ σ : Type}

/-! ### The order of keys -/

mutual

/-- The keys of every object in a value, in their order, those of an object before those of the
objects in it. -/
def keyLists : Data ρ → List (List Text)
  | .arr items => keyListsItems items
  | .obj entries => Entries.keys entries :: keyListsEntries entries
  | .ref _ context => keyLists context
  | _ => []

/-- The keys of every object in some items. -/
def keyListsItems : List (Data ρ) → List (List Text)
  | [] => []
  | x :: xs => keyLists x ++ keyListsItems xs

/-- The keys of every object in some entries. -/
def keyListsEntries : List (Text × Data ρ) → List (List Text)
  | [] => []
  | (_, x) :: es => keyLists x ++ keyListsEntries es

end

variable {f : ρ → σ}

mutual

theorem keyLists_mapRef : ∀ x : Data ρ, keyLists (mapRef f x) = keyLists x
  | .null | .bool _ | .num _ | .str _ => rfl
  | .arr xs => by rw [mapRef, keyLists, keyLists, keyListsItems_mapRef xs]
  | .obj es => by
    rw [mapRef, keyLists, keyLists, keyListsEntries_mapRef es, mapRefEntries_eq_map, keys_map]
  | .ref _ x => by rw [mapRef, keyLists, keyLists, keyLists_mapRef x]

theorem keyListsItems_mapRef :
    ∀ xs : List (Data ρ), keyListsItems (mapRefItems f xs) = keyListsItems xs
  | [] => rfl
  | x :: xs => by
    rw [mapRefItems, keyListsItems, keyListsItems, keyLists_mapRef x, keyListsItems_mapRef xs]

theorem keyListsEntries_mapRef :
    ∀ es : List (Text × Data ρ), keyListsEntries (mapRefEntries f es) = keyListsEntries es
  | [] => rfl
  | (_, x) :: es => by
    rw [mapRefEntries, keyListsEntries, keyListsEntries, keyLists_mapRef x,
      keyListsEntries_mapRef es]

end

/-! ### The text of a document among the values -/

theorem kind_ofJson_ne (j : Json) : (ofJson j : Data ρ).kind ≠ .expref := by
  cases j with
  | ref body => exact body.elim
  | null | bool | num | str | arr | obj => nofun

theorem render_ofJson (indent : Option Nat) {j : Json} (h : j.height ≤ nestingLimit) :
    (ofJson j : Data ρ).render indent = .ok (j.write indent) := by
  rw [render, if_neg (kind_ofJson_ne j), ofJson, height_mapRef, if_neg (Nat.not_lt.mpr h),
    toJson?_mapRef]

theorem render_tooDeep (indent : Option Nat) {x : Data ρ} (hk : x.kind ≠ .expref)
    (h : nestingLimit < x.height) : x.render indent = .error .tooDeep := by
  rw [render, if_neg hk, if_pos h]

end Data

/-! ### Signs of zeros -/

namespace Json

mutual

theorem height_unsigned : ∀ v : Json, v.unsigned.height = v.height
  | .null | .bool _ | .num _ | .str _ => rfl
  | .arr xs => by rw [unsigned, Data.height, Data.height, heightItems_unsigned xs]
  | .obj es => by rw [unsigned, Data.height, Data.height, heightEntries_unsigned es]
  | .ref body _ => body.elim

theorem heightItems_unsigned :
    ∀ xs : List Json, Data.heightItems (unsignedItems xs) = Data.heightItems xs
  | [] => rfl
  | x :: xs => by
    rw [unsignedItems, Data.heightItems, Data.heightItems, height_unsigned x,
      heightItems_unsigned xs]

theorem heightEntries_unsigned :
    ∀ es : List (Text × Json), Data.heightEntries (unsignedEntries es) = Data.heightEntries es
  | [] => rfl
  | (_, x) :: es => by
    rw [unsignedEntries, Data.heightEntries, Data.heightEntries, height_unsigned x,
      heightEntries_unsigned es]

end

mutual

theorem keyLists_unsigned : ∀ v : Json, v.unsigned.keyLists = v.keyLists
  | .null | .bool _ | .num _ | .str _ => rfl
  | .arr xs => by rw [unsigned, Data.keyLists, Data.keyLists, keyListsItems_unsigned xs]
  | .obj es => by
    rw [unsigned, Data.keyLists, Data.keyLists, keyListsEntries_unsigned es, keys_unsignedEntries]
  | .ref body _ => body.elim

theorem keyListsItems_unsigned :
    ∀ xs : List Json, Data.keyListsItems (unsignedItems xs) = Data.keyListsItems xs
  | [] => rfl
  | x :: xs => by
    rw [unsignedItems, Data.keyListsItems, Data.keyListsItems, keyLists_unsigned x,
      keyListsItems_unsigned xs]

theorem keyListsEntries_unsigned :
    ∀ es : List (Text × Json), Data.keyListsEntries (unsignedEntries es) = Data.keyListsEntries es
  | [] => rfl
  | (_, x) :: es => by
    rw [unsignedEntries, Data.keyListsEntries, Data.keyListsEntries, keyLists_unsigned x,
      keyListsEntries_unsigned es]

end

section
variable (indent : Option Nat)

mutual

theorem writeAt_unsigned : ∀ (level : Nat) (v : Json),
    writeAt indent level v.unsigned = writeAt indent level v
  | _, .null | _, .bool _ | _, .str _ => rfl
  | _, .num x => x.toText_unsigned
  | _, .arr [] => rfl
  | level, .arr (x :: xs) => by
    rw [unsigned, unsignedItems, writeAt, writeAt, writeAt_unsigned (level + 1) x,
      writeItems_unsigned (level + 1) xs]
  | _, .obj [] => rfl
  | level, .obj ((_, x) :: es) => by
    rw [unsigned, unsignedEntries, writeAt, writeAt, writeAt_unsigned (level + 1) x,
      writeEntries_unsigned (level + 1) es]
  | _, .ref body _ => body.elim

theorem writeItems_unsigned : ∀ (level : Nat) (xs : List Json),
    writeItems indent level (unsignedItems xs) = writeItems indent level xs
  | _, [] => rfl
  | level, x :: xs => by
    rw [unsignedItems, writeItems, writeItems, writeAt_unsigned level x,
      writeItems_unsigned level xs]

theorem writeEntries_unsigned : ∀ (level : Nat) (es : List (Text × Json)),
    writeEntries indent level (unsignedEntries es) = writeEntries indent level es
  | _, [] => rfl
  | level, (_, x) :: es => by
    rw [unsignedEntries, writeEntries, writeEntries, writeAt_unsigned level x,
      writeEntries_unsigned level es]

end

/-- The signs of zeros are not written. -/
theorem write_unsigned (v : Json) : v.unsigned.write indent = v.write indent :=
  writeAt_unsigned indent 0 v

end

/-- What is read back from the text of a document equals it. -/
theorem unsigned_same {v : Json} (hk : v.DistinctKeys) (hu : v.unsigned.DistinctKeys) :
    v.unsigned.same v = true := by
  have h := Data.reordered_of_same (same_unsigned v hk) hk hu
  exact (h.symm fun {b} _ => b.elim).same fun {b} _ => b.elim

end Json

/-- Equality of documents is that of values. -/
theorem Value.same_ofJson (i j : Json) :
    Value.same (Data.ofJson i) (Data.ofJson j) = Json.same i j :=
  Data.same_mapRef (fun b => b.elim) i j

/-- Values are read back from their texts: the JSON text of a value that holds no reference, whose
objects have distinct keys and which is not nested too deeply is read, whatever its indentation, as
an equal value with the keys of every object in the same order, whose texts are those of the
value. -/
theorem read_render {v : Value} (hr : v.hasRef = false) (hk : v.DistinctKeys)
    (hn : v.height ≤ nestingLimit) (indent : Option Nat) :
    ∃ t j, v.render indent = .ok t ∧ Json.read t = .ok j ∧
      Value.same (Data.ofJson j) v = true ∧
      (Data.ofJson j : Value).keyLists = v.keyLists ∧
      ∀ indent', (Data.ofJson j : Value).render indent' = v.render indent' := by
  obtain ⟨w, rfl⟩ := Data.exists_ofJson hr
  rw [Data.ofJson, Data.distinctKeys_mapRef] at hk
  rw [Data.ofJson, Data.height_mapRef] at hn
  have hread := Json.read_write indent hk hn
  have hu : w.unsigned.DistinctKeys := Json.distinctKeys_of_read hread
  have hnu : w.unsigned.height ≤ nestingLimit := by rwa [Json.height_unsigned]
  refine ⟨w.write indent, w.unsigned, Data.render_ofJson indent hn, hread, ?_, ?_, ?_⟩
  · rw [Value.same_ofJson]
    exact Json.unsigned_same hk hu
  · rw [Data.ofJson, Data.ofJson, Data.keyLists_mapRef, Data.keyLists_mapRef,
      Json.keyLists_unsigned]
  · intro indent'
    rw [Data.render_ofJson indent' hnu, Data.render_ofJson indent' hn, Json.write_unsigned]

/-- A zero with a sign, and an object whose keys are not in alphabetical order, one of them with a
control character in it, beside a surrogate that stands alone. -/
theorem read_render_signed_zero :
    let zero : Value := .num { Number.zero with negative := true }
    let v : Value := .arr [zero, .obj [("b\n", .arr []), ("a", .str [.surrogate 0])]]
    let t : Text := Text.ofString "[0,\x7b\"b\\n\":[],\"a\":\"" ++ [.surrogate 0] ++
      Text.ofString "\"\x7d]"
    ∃ j, v.render none = .ok t ∧ Json.read t = .ok j ∧ Value.same (Data.ofJson j) v = true ∧
      (Data.ofJson j : Value).keyLists = [[Text.ofString "b\n", Text.ofString "a"]] ∧
      ∀ indent, (Data.ofJson j : Value).render indent = v.render indent := by
  intro zero v t
  have hr : v.hasRef = false := rfl
  have hk : v.DistinctKeys := by decide
  have hn : v.height ≤ nestingLimit := by decide
  have ht : v.render none = .ok t := by decide +kernel
  obtain ⟨t', j, ht', hj, hsame, hkeys, htexts⟩ := read_render hr hk hn none
  obtain rfl : t = t' := Except.ok.inj (ht.symm.trans ht')
  exact ⟨j, ht, hj, hsame, hkeys, htexts⟩

end JsonQuery
