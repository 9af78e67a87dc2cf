/-
The boundary to the embedding program.

A value that is handed out and taken back is an equal value with the keys of every object in the
same order: its references are passed on as they are, and only the signs of zeros are lost.  Data
that have no value are refused for the first of their parts, in the order in which they are
converted, that stands for nothing: a key that is no text, a number that is not finite, an integer
that is too large, or something of a type without values.  The error is one of types, but for an
integer that is too long to be shown.

* `Value.exists_toValue_toHost` — what is taken back of a value that was handed out;
* `Host.parts`, `Host.Part.Faulty` — the parts of data, and those that have no value;
* `Host.toValue_eq_error_iff` — data are refused for the first of their parts that is faulty;
* `host_boundary` — what comes back over the boundary, and what is refused.
-/
import JsonQuery.Host
import JsonQuery.Proofs.Eval.Equality
import JsonQuery.Proofs.Json.Render
import JsonQuery.Proofs.Number.Range

namespace JsonQuery

-- Powers of naturals are those of the core library, whatever else is imported.
attribute [local instance (2000)] instPowNat

/-! ### Values that are handed out and taken back -/

namespace Entries
variable {α β : Type} {near : α → β → Prop} {es : Entries α} {fs : Entries β}

theorem keys_eq_of_near (h : List.Forall₂ (Near near) es fs) : keys es = keys fs := by
  induction h with
  | nil => rfl
  | cons hef _ ih => rw [keys_cons, keys_cons, ih, hef.1]

/-- Maps with related entries in the same order are each other with their keys in another order. -/
theorem reordered_of_near (h : List.Forall₂ (Near near) es fs) (hf : (keys fs).Nodup) :
    Reordered near es fs := by
  refine ⟨by rwa [keys_eq_of_near h], hf, ?_⟩
  intro k
  clear hf
  induction h with
  | nil => exact .none
  | cons hef _ ih =>
    rw [get?, get?, hef.1]
    split
    · exact .some hef.2
    · exact ih

end Entries

namespace Value
open Host

mutual

/-- A value that is handed out is taken back with other signs at its zeros. -/
theorem exists_toValue_toHost : ∀ v : Value, v.WellKeyed →
    ∃ w, v.toHost.toValue = .ok w ∧ Data.Reordered SameTrees w v ∧ w.keyLists = v.keyLists
  | .null, _ => ⟨.null, rfl, .null, rfl⟩
  | .bool _, _ => ⟨_, rfl, .bool, rfl⟩
  | .str _, _ => ⟨_, rfl, .str, rfl⟩
  | .num x, _ => by
    refine ⟨.num x.unsigned, ?_, .num (beq_iff_eq.mp x.same_unsigned).symm, rfl⟩
    rw [toHost, toValue, x.toNumber_toNumeral]
    rfl
  | .arr xs, h => by
    cases h with
    | arr h =>
      obtain ⟨ws, hread, hnear, hkeys⟩ := exists_itemsToValue xs h
      refine ⟨.arr ws, ?_, Data.reordered_arr_iff.mpr hnear, hkeys⟩
      rw [toHost, toValue, hread]
      rfl
  | .obj es, h => by
    cases h with
    | obj hnodup h =>
      obtain ⟨ws, hread, hnear, hkeys⟩ := exists_entriesToValue es h
      refine ⟨.obj ws, ?_, Data.reordered_obj_iff.mpr (Entries.reordered_of_near hnear hnodup), ?_⟩
      · rw [toHost, toValue, hread]
        rfl
      · rw [Data.keyLists, Data.keyLists, hkeys, Entries.keys_eq_of_near hnear]
  | .ref b x, h => by
    cases h with
    | ref hb hx =>
      have hself := (Data.same_iff_reordered hx hx).mp (Value.same_equivalence.refl hx)
      exact ⟨.ref b x, rfl, .ref ⟨hb, hb, Expr.same_self b hb⟩ hself, rfl⟩

theorem exists_itemsToValue : ∀ xs : List Value, (∀ x ∈ xs, WellKeyed x) →
    ∃ ws, Host.itemsToValue (itemsToHost xs) = .ok ws ∧
      List.Forall₂ (Data.Reordered SameTrees) ws xs ∧
      Data.keyListsItems ws = Data.keyListsItems xs
  | [], _ => ⟨[], rfl, .nil, rfl⟩
  | x :: xs, h => by
    obtain ⟨hx, hxs⟩ := List.forall_mem_cons.mp h
    obtain ⟨w, hw, hwx, hk⟩ := exists_toValue_toHost x hx
    obtain ⟨ws, hws, hwsx, hks⟩ := exists_itemsToValue xs hxs
    refine ⟨w :: ws, ?_, .cons hwx hwsx, ?_⟩
    · rw [itemsToHost, itemsToValue, hw, hws]
      rfl
    · rw [Data.keyListsItems, Data.keyListsItems, hk, hks]

theorem exists_entriesToValue : ∀ es : List (Text × Value), (∀ e ∈ es, WellKeyed e.2) →
    ∃ ws, Host.entriesToValue (entriesToHost es) = .ok ws ∧
      List.Forall₂ (Entries.Near (Data.Reordered SameTrees)) ws es ∧
      Data.keyListsEntries ws = Data.keyListsEntries es
  | [], _ => ⟨[], rfl, .nil, rfl⟩
  | (k, x) :: es, h => by
    obtain ⟨hx, hes⟩ := List.forall_mem_cons.mp h
    obtain ⟨w, hw, hwx, hk⟩ := exists_toValue_toHost x hx
    obtain ⟨ws, hws, hwsx, hks⟩ := exists_entriesToValue es hes
    refine ⟨(k, w) :: ws, ?_, .cons ⟨rfl, hwx⟩ hwsx, ?_⟩
    · rw [entriesToHost, entriesToValue, keyText, hw, hws]
      rfl
    · rw [Data.keyListsEntries, Data.keyListsEntries, hk, hks]

end

mutual

/-- A value is nested as deeply as what is handed out of it. -/
theorem height_toHost : ∀ v : Value, v.toHost.height = v.height
  | .null | .bool _ | .str _ | .num _ | .ref _ _ => rfl
  | .arr xs => by rw [toHost, Host.height, Data.height, heightItems_itemsToHost xs]
  | .obj es => by rw [toHost, Host.height, Data.height, heightEntries_entriesToHost es]

theorem heightItems_itemsToHost :
    ∀ xs : List Value, Host.heightItems (itemsToHost xs) = Data.heightItems xs
  | [] => rfl
  | x :: xs => by
    rw [itemsToHost, Host.heightItems, Data.heightItems, height_toHost x,
      heightItems_itemsToHost xs]

theorem heightEntries_entriesToHost :
    ∀ es : List (Text × Value), Host.heightEntries (entriesToHost es) = Data.heightEntries es
  | [] => rfl
  | (k, x) :: es => by
    rw [entriesToHost, Host.heightEntries, Data.heightEntries, height_toHost x,
      heightEntries_entriesToHost es]

end

end Value

/-! ### Data that are refused -/

namespace Host

/-- A part of data: data without items and entries, or a key. -/
inductive Part where
  | data (h : Host)
  | key (h : Host)

mutual

/-- The parts of data, in the order in which they are converted.  What is passed on as it is is one
part. -/
def parts : Host → List Part
  | .list items => partsOfItems items
  | .tuple items => partsOfItems items
  | .dict entries => partsOfEntries entries
  | h => [.data h]

/-- The parts of some items. -/
def partsOfItems : List Host → List Part
  | [] => []
  | x :: xs => parts x ++ partsOfItems xs

/-- The parts of some entries. -/
def partsOfEntries : List (Host × Host) → List Part
  | [] => []
  | (k, x) :: es => .key k :: (parts x ++ partsOfEntries es)

end

/-- A part has no value. -/
inductive Part.Faulty : Part → Prop
  | key {k : Host} : (∀ t, k ≠ .str t) → Faulty (.key k)
  | notFinite {x : Float64} : (∀ n, x ≠ .finite n) → Faulty (.data (.num (.float x)))
  | tooLarge {i : Int} : Number.tooLarge ≤ i.natAbs → Faulty (.data (.num (.int i)))
  | bytes {content} : Faulty (.data (.bytes content))
  | foreign {typeName} : Faulty (.data (.foreign typeName))

/-- A part is an integer with more digits than are written out. -/
inductive Part.TooLong : Part → Prop
  | int {i : Int} : 10 ^ Text.intDigitLimit ≤ i.natAbs → TooLong (.data (.num (.int i)))

/-- The error of a conversion, if it fails. -/
def errorOf {α : Type} : Except ConversionError α → Option ConversionError
  | .error e => some e
  | .ok _ => none

/-- Why a part has no value. -/
def Part.error? : Part → Option ConversionError
  | .data (.list _) => none
  | .data (.tuple _) => none
  | .data (.dict _) => none
  | .data h => errorOf h.toValue
  | .key k => errorOf (keyText k)

@[simp] theorem errorOf_map {α β : Type} (f : α → β) (x : Except ConversionError α) :
    errorOf (x.map f) = errorOf x := by
  cases x <;> rfl

@[simp] theorem errorOf_bind_ok {α β γ : Type} (x : Except ConversionError α)
    (y : Except ConversionError β) (f : α → β → γ) :
    errorOf (do let a ← x; let b ← y; .ok (f a b)) = (errorOf x).or (errorOf y) := by
  cases x <;> cases y <;> rfl

mutual

/-- Data are refused for the first of their parts that has no value. -/
theorem errorOf_toValue : ∀ h : Host, errorOf h.toValue = h.parts.findSome? Part.error?
  | .list xs => by rw [toValue, errorOf_map, errorOf_itemsToValue xs, parts]
  | .tuple xs => by rw [toValue, errorOf_map, errorOf_itemsToValue xs, parts]
  | .dict es => by rw [toValue, errorOf_map, errorOf_entriesToValue es, parts]
  | .null | .bool _ | .str _ | .value _ | .ref _ _ | .num _ | .bytes _ | .foreign _ => by
    simp [parts, Part.error?]

theorem errorOf_itemsToValue :
    ∀ xs : List Host, errorOf (itemsToValue xs) = (partsOfItems xs).findSome? Part.error?
  | [] => rfl
  | x :: xs => by
    rw [itemsToValue, errorOf_bind_ok, errorOf_toValue x, errorOf_itemsToValue xs, partsOfItems,
      List.findSome?_append]

theorem errorOf_entriesToValue : ∀ es : List (Host × Host),
    errorOf (entriesToValue es) = (partsOfEntries es).findSome? Part.error?
  | [] => rfl
  | (k, x) :: es => by
    rw [entriesToValue, partsOfEntries, List.findSome?_cons, List.findSome?_append,
      ← errorOf_toValue x, ← errorOf_entriesToValue es, Part.error?]
    cases keyText k with
    | error e => rfl
    | ok t => exact errorOf_bind_ok (x.toValue) (entriesToValue es) fun y ys => (t, y) :: ys

end

theorem errorClass_tooLarge (i : Int) :
    (ConversionError.numeral (.tooLarge i)).errorClass =
      if 10 ^ Text.intDigitLimit ≤ i.natAbs then .valueError else .typeError := by
  rw [ConversionError.errorClass, NumeralError.errorClass, NumeralError.isUnwritable]
  simp only [decide_eq_true_iff]

theorem Part.error?_num (n : Numeral) :
    (Part.data (.num n)).error? = errorOf (n.toNumber.mapError .numeral) := by
  have hnum : (Part.data (.num n)).error? =
      errorOf ((n.toNumber.map Data.num).mapError .numeral : Except ConversionError Value) := rfl
  rw [hnum]
  cases n.toNumber <;> rfl

/-- A faulty part is refused with an error of types, or of values if it is too long. -/
theorem Part.Faulty.exists_error {p : Part} (h : p.Faulty) :
    ∃ e, p.error? = some e ∧
      (p.TooLong → e.errorClass = .valueError) ∧ (¬ p.TooLong → e.errorClass = .typeError) := by
  cases h with
  | @key k h =>
    have hk : keyText k = .error (.keyNotText k.typeName) := by
      cases k with
      | str t => exact absurd rfl (h t)
      | null | bool | num | bytes | list | tuple | dict | value | ref | foreign => rfl
    rw [error?, hk]
    exact ⟨_, rfl, nofun, fun _ => rfl⟩
  | @notFinite x h =>
    cases x with
    | finite n => exact absurd rfl (h n)
    | infinite | nan => exact ⟨_, rfl, nofun, fun _ => rfl⟩
  | tooLarge h =>
    rw [error?_num, Numeral.toNumber_int_eq_error ((Number.ofInt?_eq_none_iff _).mpr h)]
    refine ⟨_, rfl, ?_, ?_⟩
    · rintro ⟨hlong⟩
      rw [errorClass_tooLarge, if_pos hlong]
    · intro hshort
      rw [errorClass_tooLarge, if_neg fun hlong => hshort ⟨hlong⟩]
  | bytes | foreign => exact ⟨_, rfl, nofun, fun _ => rfl⟩

/-- All other parts have a value. -/
theorem Part.error?_eq_none {p : Part} (h : ¬ p.Faulty) : p.error? = none := by
  rcases p with d | k
  · cases d with
    | num n =>
      cases n with
      | int i =>
        cases hi : Number.ofInt? i with
        | none => exact absurd (.tooLarge ((Number.ofInt?_eq_none_iff i).mp hi)) h
        | some x =>
          rw [error?_num, Numeral.toNumber_int hi]
          rfl
      | float x =>
        cases x with
        | finite => rfl
        | infinite | nan => exact absurd (.notFinite (by rintro n ⟨⟩)) h
    | bytes => exact absurd .bytes h
    | foreign => exact absurd .foreign h
    | null | bool | str | list | tuple | dict | value | ref => rfl
  · cases k with
    | str => rfl
    | null | bool | num | bytes | list | tuple | dict | value | ref | foreign =>
      exact absurd (.key nofun) h

theorem Part.error?_eq_none_iff {p : Part} : p.error? = none ↔ ¬ p.Faulty := by
  refine ⟨fun hnone h => ?_, error?_eq_none⟩
  obtain ⟨e, he, -⟩ := h.exists_error
  rw [hnone] at he
  cases he

theorem errorOf_eq_some {α : Type} {x : Except ConversionError α} {e : ConversionError} :
    errorOf x = some e ↔ x = .error e := by
  cases x <;> simp [errorOf]

theorem errorOf_eq_none {α : Type} {x : Except ConversionError α} :
    errorOf x = none ↔ ∃ v, x = .ok v := by
  cases x <;> simp [errorOf]

/-- Data are refused for the first of their parts that is faulty. -/
theorem toValue_eq_error_iff {d : Host} {e : ConversionError} :
    d.toValue = .error e ↔ ∃ pre p post, d.parts = pre ++ p :: post ∧
      (∀ q ∈ pre, ¬ q.Faulty) ∧ p.error? = some e := by
  rw [← errorOf_eq_some, errorOf_toValue, List.findSome?_eq_some_iff]
  simp only [Part.error?_eq_none_iff]
  constructor
  · rintro ⟨pre, p, post, hparts, he, hpre⟩
    exact ⟨pre, p, post, hparts, hpre, he⟩
  · rintro ⟨pre, p, post, hparts, hpre, he⟩
    exact ⟨pre, p, post, hparts, he, hpre⟩

/-- Data have a value when none of their parts is faulty. -/
theorem exists_toValue_iff {d : Host} :
    (∃ v, d.toValue = .ok v) ↔ ∀ p ∈ d.parts, ¬ p.Faulty := by
  rw [← errorOf_eq_none, errorOf_toValue, List.findSome?_eq_none_iff]
  simp only [Part.error?_eq_none_iff]

/-- Data are refused with an error of a class. -/
def Refused (d : Host) (c : ErrorClass) : Prop :=
  ∃ e, d.toValue = .error e ∧ e.errorClass = c

/-- The first faulty part of data is one of some kind. -/
def FirstFault (d : Host) (kind : Part → Prop) : Prop :=
  ∃ pre p post, d.parts = pre ++ p :: post ∧ (∀ q ∈ pre, ¬ q.Faulty) ∧ p.Faulty ∧ kind p

theorem refused_iff {d : Host} {c : ErrorClass} :
    d.Refused c ↔ d.FirstFault fun p => p.TooLong ↔ c = .valueError := by
  have hclass : ∀ {p : Part} {e}, p.Faulty → p.error? = some e →
      (e.errorClass = c ↔ (p.TooLong ↔ c = .valueError)) := by
    intro p e hp he
    obtain ⟨e', he', hlong, hshort⟩ := hp.exists_error
    obtain rfl : e = e' := Option.some.inj (he.symm.trans he')
    by_cases h : p.TooLong
    · rw [hlong h]
      simp [h, eq_comm]
    · rw [hshort h]
      cases c <;> simp [h]
  constructor
  · rintro ⟨e, he, hc⟩
    obtain ⟨pre, p, post, hparts, hpre, hp⟩ := toValue_eq_error_iff.mp he
    have hfaulty : p.Faulty := by
      by_contra hnot
      rw [Part.error?_eq_none hnot] at hp
      cases hp
    exact ⟨pre, p, post, hparts, hpre, hfaulty, (hclass hfaulty hp).mp hc⟩
  · rintro ⟨pre, p, post, hparts, hpre, hfaulty, hc⟩
    obtain ⟨e, hp, -⟩ := hfaulty.exists_error
    exact ⟨e, toValue_eq_error_iff.mpr ⟨pre, p, post, hparts, hpre, hp⟩,
      (hclass hfaulty hp).mpr hc⟩

theorem refused_typeError_iff {d : Host} :
    d.Refused .typeError ↔ d.FirstFault fun p => ¬ p.TooLong := by
  rw [refused_iff]
  simp

theorem refused_valueError_iff {d : Host} : d.Refused .valueError ↔ d.FirstFault Part.TooLong := by
  rw [refused_iff]
  simp

/-- Data are refused with one error. -/
theorem Refused.unique {d : Host} {c c' : ErrorClass} (h : d.Refused c) (h' : d.Refused c') :
    c = c' := by
  obtain ⟨e, he, rfl⟩ := h
  obtain ⟨e', he', rfl⟩ := h'
  rw [Except.error.inj (he.symm.trans he')]

/-- Data with a faulty part are refused. -/
theorem refused_of_faulty {d : Host} (h : ∃ p ∈ d.parts, p.Faulty) :
    d.Refused .typeError ∨ d.Refused .valueError := by
  obtain ⟨p, hmem, hp⟩ := h
  cases hd : d.toValue with
  | ok v => exact absurd hp (exists_toValue_iff.mp ⟨v, hd⟩ p hmem)
  | error e =>
    cases hc : e.errorClass with
    | typeError => exact .inl ⟨e, hd, hc⟩
    | valueError => exact .inr ⟨e, hd, hc⟩

theorem FirstFault.exists_faulty {d : Host} {kind : Part → Prop} (h : d.FirstFault kind) :
    ∃ p ∈ d.parts, p.Faulty := by
  obtain ⟨pre, p, post, hparts, -, hp, -⟩ := h
  exact ⟨p, by simp [hparts], hp⟩

/-- The data that are refused with an error of types are those with a faulty part exactly when the
first of these parts is no integer too long to be shown. -/
theorem refused_iff_faulty_iff {d : Host} :
    (d.Refused .typeError ↔ ∃ p ∈ d.parts, p.Faulty) ↔ ¬ d.FirstFault Part.TooLong := by
  rw [← refused_valueError_iff]
  constructor
  · intro h hvalue
    have htype := h.mpr (refused_valueError_iff.mp hvalue).exists_faulty
    cases htype.unique hvalue
  · intro h
    refine ⟨fun htype => (refused_typeError_iff.mp htype).exists_faulty, fun hfaulty => ?_⟩
    exact (refused_of_faulty hfaulty).resolve_right h

theorem read_of_height_le {d : Host} (h : d.height ≤ nestingLimit) :
    d.read = d.toValue.mapError .conversion := by
  rw [read, if_neg (Nat.not_lt_of_le h)]

end Host

/-- A value that is handed out and taken back is an equal value with the keys of every object in the
same order.  Data are refused with an error of types exactly when one of their parts is faulty,
unless the first part that is faulty is an integer too long to be shown, for which the error is one
of values. -/
theorem host_boundary (v : Value) (d : Host) :
    (v.WellKeyed → v.height ≤ nestingLimit →
      ∃ w, v.toHost.read = .ok w ∧ Value.same w v = true ∧ w.keyLists = v.keyLists) ∧
    (d.height ≤ nestingLimit → d.read = d.toValue.mapError .conversion) ∧
    ((d.Refused .typeError ↔ ∃ p ∈ d.parts, p.Faulty) ↔ ¬ d.FirstFault Host.Part.TooLong) ∧
    (d.Refused .typeError ↔ d.FirstFault fun p => ¬ p.TooLong) ∧
    (d.Refused .valueError ↔ d.FirstFault Host.Part.TooLong) ∧
    ((∃ w, d.toValue = .ok w) ↔ ∀ p ∈ d.parts, ¬ p.Faulty) := by
  refine ⟨?_, Host.read_of_height_le, Host.refused_iff_faulty_iff, Host.refused_typeError_iff,
    Host.refused_valueError_iff, Host.exists_toValue_iff⟩
  intro hv hheight
  obtain ⟨w, hw, hnear, hkeys⟩ := v.exists_toValue_toHost hv
  refine ⟨w, ?_, hnear.same fun hb => hb.2.2, hkeys⟩
  rw [Host.read_of_height_le (by rwa [Value.height_toHost]), hw]
  rfl

/-- A reference beside a zero with a sign in a map, and a key that is no text behind a fault in a
list. -/
theorem host_boundary_reference :
    let v : Value := .obj [("b", .num { Number.zero with negative := true }),
      ("a", .ref (.atom .current 1) (.arr []))]
    let d : Host := .list [.tuple [.null, .bytes []], .dict [(.num (.int 1), .null)]]
    (∃ w, v.toHost.read = .ok w ∧ Value.same w v = true ∧
      w.keyLists = [[Text.ofString "b", Text.ofString "a"]]) ∧
      d.read = d.toValue.mapError .conversion ∧ d.Refused .typeError := by
  intro v d
  have hv : v.WellKeyed := by
    refine .obj (by decide) (List.forall_mem_cons.mpr ⟨.num, List.forall_mem_singleton.mpr ?_⟩)
    exact .ref (fun _ _ h => by simp [Expr.walk] at h) (.arr (List.forall_mem_nil _))
  have hparts : d.parts = [.data .null, .data (.bytes []), .key (.num (.int 1)), .data .null] := rfl
  have hlong : ¬ d.FirstFault Host.Part.TooLong := by
    rintro ⟨pre, p, post, hp, -, -, hlong⟩
    have hmem : p ∈ d.parts := by simp [hp]
    cases hlong
    simp [hparts] at hmem
  obtain ⟨hback, hread, hrefused, -⟩ := host_boundary v d
  exact ⟨hback hv (by decide), hread (by decide),
    (hrefused.mpr hlong).mpr ⟨.data (.bytes []), by simp [hparts], .bytes⟩⟩

/-- An integer with one digit more than are written out is too large for a number, but the error is
not one of types. -/
theorem Host.long_integer_refused :
    let d : Host := .num (.int ((10 ^ Text.intDigitLimit : Nat) : Int))
    (∃ p ∈ d.parts, p.Faulty) ∧ ¬ d.Refused .typeError := by
  intro d
  have hle : Number.tooLarge ≤ 10 ^ Text.intDigitLimit :=
    Number.tooLarge_le_ten_pow (by decide)
  have hlong : (Part.data d).TooLong := .int (Nat.le_of_eq (Int.natAbs_natCast _).symm)
  have hfaulty : (Part.data d).Faulty :=
    .tooLarge (Nat.le_trans hle (Nat.le_of_eq (Int.natAbs_natCast _).symm))
  refine ⟨⟨_, List.mem_singleton_self _, hfaulty⟩, ?_⟩
  rw [refused_typeError_iff]
  rintro ⟨pre, p, post, hparts, -, -, hshort⟩
  have hp : p ∈ d.parts := by simp [hparts]
  obtain rfl : p = .data d := List.mem_singleton.mp hp
  exact hshort hlong

end JsonQuery
