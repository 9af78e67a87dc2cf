/-
Documents are read back as they were written.

* `CodePoint.Visible` — the code points that written documents start and end with;
* `Reader.value_writeAt` — a written document is read back before whatever follows it;
* `Json.read_write` — with every indentation the text of a document gives that document again,
  its entries in the same order, save for the signs of zeros.
-/
import JsonQuery.Proofs.Json.Quoted
import JsonQuery.Proofs.Json.Unsigned

namespace JsonQuery

open Text

namespace Reader

/-! ### Numbers among documents -/

theorem takeWhole_head {t whole rest : Text} (h : takeWhole t = some (whole, rest)) :
    ∃ c u, t = c :: u ∧ c.isDigit = true := by
  cases t with
  | nil => cases h
  | cons c u =>
    refine ⟨c, u, rfl, ?_⟩
    rw [← Bool.not_eq_false]
    intro hc
    unfold takeWhole at h
    split at h
    · next heq =>
      cases heq
      exact absurd hc (by decide)
    · rw [takeDigits, List.span_eq_takeWhile_dropWhile,
        List.takeWhile_cons_of_neg (by rw [hc]; exact Bool.false_ne_true)] at h
      cases h

/-- A numeral starts with a digit, or with a minus sign and a digit. -/
theorem numeral_head {t rest : Text} {n : Numeral} (h : numeral t = .ok (n, rest)) :
    ∃ c u, c.isDigit = true ∧ (t = c :: u ∨ t = .scalar '-' :: c :: u) := by
  unfold numeral at h
  split at h
  next negative body hm =>
  cases hw : takeWhole body with
  | none =>
    rw [hw] at h
    cases h
  | some p =>
    obtain ⟨c, u, rfl, hc⟩ := takeWhole_head hw
    refine ⟨c, u, hc, ?_⟩
    split at hm
    · cases hm
      exact .inr rfl
    · cases hm
      exact .inl rfl

theorem value_eq_scalar {allow : Bool} {bound nesting : Nat} {c : CodePoint} {u : Text}
    (hq : c ≠ .scalar '\x22') (ha : c ≠ .scalar '[') (ho : c ≠ .scalar '\x7b') :
    value allow bound nesting (c :: u) = scalar allow (c :: u) := by
  unfold value
  split
  · next heq => exact absurd (List.cons.inj heq).1 hq
  · next heq => exact absurd (List.cons.inj heq).1 ha
  · next heq => exact absurd (List.cons.inj heq).1 ho
  · next heq => exact absurd (List.cons.inj heq).1 ha
  · next heq => exact absurd (List.cons.inj heq).1 ho
  · rfl

/-- What reads as a numeral is read as a number. -/
theorem value_of_numeral {allow : Bool} {bound nesting : Nat} {t rest : Text} {n : Numeral}
    (h : numeral t = .ok (n, rest)) : value allow bound nesting t = .ok (.num n, rest) := by
  obtain ⟨c, u, hc, ht⟩ := numeral_head h
  have hne (d : Char) (hd : d.isDigit = false) : CodePoint.scalar d ≠ c := by
    rintro rfl
    rw [CodePoint.isDigit_scalar, hd] at hc
    cases hc
  have hscalar : scalar allow t = .ok (.num n, rest) := by
    have hn : takeName names t = none := by
      rcases ht with rfl | rfl <;>
        simp [takeName, names, ofString, ofChars, hne]
    have hk : takeName constants t = none := by
      rcases ht with rfl | rfl <;>
        simp [takeName, constants, ofString, ofChars, hne]
    rw [scalar, hn]
    dsimp only
    rw [hk]
    dsimp only
    rw [h]
    rfl
  rw [← hscalar]
  rcases ht with rfl | rfl
  · exact value_eq_scalar (hne _ rfl).symm (hne _ rfl).symm (hne _ rfl).symm
  · exact value_eq_scalar (by decide) (by decide) (by decide)

end Reader

/-! ### The parts of a text -/

/-- The code points that can be seen, those of ASCII alone. -/
def CodePoint.Visible (c : CodePoint) : Prop :=
  32 < c.toNat ∧ c.toNat < 127

instance (c : CodePoint) : Decidable c.Visible :=
  inferInstanceAs (Decidable (_ ∧ _))

theorem CodePoint.Visible.isSpace {c : CodePoint} (h : c.Visible) : Reader.isSpace c = false := by
  simp only [Reader.isSpace, Bool.or_eq_false_iff, beq_eq_false_iff_ne]
  refine ⟨⟨⟨?_, ?_⟩, ?_⟩, ?_⟩ <;>
    · rintro rfl
      revert h
      decide

theorem CodePoint.visible_of_inNumeral {c : CodePoint} (h : c.inNumeral = true) : c.Visible := by
  simp only [inNumeral, isDigit, Bool.or_eq_true, Bool.and_eq_true, decide_eq_true_eq,
    beq_iff_eq] at h
  rcases h with (((h | rfl) | rfl) | rfl) | rfl
  · exact ⟨by omega, by omega⟩
  all_goals decide

namespace Json
variable (indent : Option Nat)

theorem length_writeItems (level : Nat) (xs : List Json) :
    xs.length ≤ (writeItems indent level xs).length ∧
      ∀ x ∈ xs, (writeAt indent level x).length ≤ (writeItems indent level xs).length := by
  induction xs with
  | nil => exact ⟨Nat.le_refl _, nofun⟩
  | cons x xs ih =>
    obtain ⟨hl, hx⟩ := ih
    simp only [writeItems, comma, List.length_append, List.length_cons]
    refine ⟨by omega, List.forall_mem_cons.mpr ⟨by omega, fun y hy => ?_⟩⟩
    have := hx y hy
    omega

theorem length_writeEntries (level : Nat) (es : List (Text × Json)) :
    es.length ≤ (writeEntries indent level es).length ∧
      ∀ e ∈ es, (writeAt indent level e.2).length ≤ (writeEntries indent level es).length := by
  induction es with
  | nil => exact ⟨Nat.le_refl _, List.forall_mem_nil _⟩
  | cons e es ih =>
    obtain ⟨hl, he⟩ := ih
    simp only [writeEntries, comma, List.length_append, List.length_cons]
    refine ⟨by omega, List.forall_mem_cons.mpr ⟨by omega, fun f hf => ?_⟩⟩
    have := he f hf
    omega

/-- The text of an array is longer than each of its items, and than their number. -/
theorem length_writeAt_arr (level : Nat) (xs : List Json) :
    xs.length < (writeAt indent level (.arr xs)).length ∧
      ∀ x ∈ xs, (writeAt indent (level + 1) x).length ≤
        (writeAt indent level (.arr xs)).length := by
  cases xs with
  | nil => exact ⟨Nat.zero_lt_succ 1, nofun⟩
  | cons x xs =>
    obtain ⟨hl, hx⟩ := length_writeItems indent (level + 1) xs
    simp only [writeAt, enclose, List.length_append, List.length_cons, List.length_nil]
    refine ⟨by omega, List.forall_mem_cons.mpr ⟨by omega, fun y hy => ?_⟩⟩
    have := hx y hy
    omega

/-- The text of an object is longer than each of its values, and than their number. -/
theorem length_writeAt_obj (level : Nat) (es : List (Text × Json)) :
    es.length < (writeAt indent level (.obj es)).length ∧
      ∀ e ∈ es, (writeAt indent (level + 1) e.2).length ≤
        (writeAt indent level (.obj es)).length := by
  rcases es with _ | ⟨⟨k, x⟩, es⟩
  · exact ⟨Nat.zero_lt_succ 1, List.forall_mem_nil _⟩
  · obtain ⟨hl, he⟩ := length_writeEntries indent (level + 1) es
    simp only [writeAt, enclose, List.length_append, List.length_cons, List.length_nil]
    refine ⟨by omega, List.forall_mem_cons.mpr ⟨by simp only; omega, fun f hf => ?_⟩⟩
    have := he f hf
    omega

/-- The text of a value starts with a code point that can be seen and closes no array. -/
theorem exists_writeAt_cons (level : Nat) (v : Json) :
    ∃ c u, writeAt indent level v = c :: u ∧ c.Visible ∧ c ≠ .scalar ']' := by
  cases v with
  | null => exact ⟨_, _, rfl, by decide, by decide⟩
  | bool b => cases b <;> exact ⟨_, _, rfl, by decide, by decide⟩
  | num x =>
    obtain ⟨c, u, hc⟩ := List.exists_cons_of_ne_nil x.toText_ne_nil
    have hn : c.inNumeral = true := NumeralText.toText x c (hc ▸ List.mem_cons_self)
    refine ⟨c, u, hc, CodePoint.visible_of_inNumeral hn, ?_⟩
    rintro rfl
    exact absurd hn (by decide)
  | str t => exact ⟨_, _, rfl, by decide, by decide⟩
  | arr xs => cases xs <;> exact ⟨_, _, rfl, by decide, by decide⟩
  | obj es =>
    match es with
    | [] => exact ⟨_, _, rfl, by decide, by decide⟩
    | (k, x) :: es => exact ⟨_, _, rfl, by decide, by decide⟩
  | ref body => exact body.elim

end Json

namespace Reader
variable (indent : Option Nat)

theorem skipSpaces_cons {c : CodePoint} (hc : c.Visible) (u : Text) :
    skipSpaces (c :: u) = c :: u := by
  rw [skipSpaces, List.dropWhile_cons_of_neg (by rw [hc.isSpace]; exact Bool.false_ne_true)]

theorem skipSpaces_lineBreak (level : Nat) {c : CodePoint} (hc : c.Visible) (u : Text) :
    skipSpaces (Json.lineBreak indent level ++ c :: u) = c :: u := by
  rw [skipSpaces, List.dropWhile_append_of_pos]
  · exact skipSpaces_cons hc u
  · intro d hd
    cases indent with
    | none => cases hd
    | some n =>
      rcases List.mem_cons.mp hd with rfl | hd
      · rfl
      · rw [List.eq_of_mem_replicate hd]
        rfl

theorem skipSpaces_writeAt (level : Nat) (v : Json) (u : Text) :
    skipSpaces (Json.writeAt indent level v ++ u) = Json.writeAt indent level v ++ u := by
  obtain ⟨c, w, hw, hc, -⟩ := Json.exists_writeAt_cons indent level v
  rw [hw, List.cons_append, skipSpaces_cons hc]

theorem skipSpaces_lineBreak_writeAt (level level' : Nat) (v : Json) (u : Text) :
    skipSpaces (Json.lineBreak indent level ++ (Json.writeAt indent level' v ++ u)) =
      Json.writeAt indent level' v ++ u := by
  obtain ⟨c, w, hw, hc, -⟩ := Json.exists_writeAt_cons indent level' v
  rw [hw, List.cons_append, skipSpaces_lineBreak indent level hc]

/-- No numeral goes on into the end of an array or object. -/
theorem endsNumeral_lineBreak (level : Nat) {u : Text} (hu : EndsNumeral u) :
    EndsNumeral (Json.lineBreak indent level ++ u) := by
  cases indent with
  | none => exact hu
  | some n =>
    intro c hc
    cases hc
    decide

theorem endsNumeral_cons {c : CodePoint} {u : Text}
    (h : c.isDigit = false ∧ c ≠ .scalar '.' ∧ c ≠ .scalar 'e' ∧ c ≠ .scalar 'E') :
    EndsNumeral (c :: u) := by
  intro d hd
  cases hd
  exact h

/-! ### Arrays and objects -/

/-- A step reads the text of a value wherever no numeral goes on. -/
def ReadsBack (step : Step Document) (level : Nat) (v : Json) : Prop :=
  ∀ rest, EndsNumeral rest →
    step (Json.writeAt indent level v ++ rest) = .ok (v.toDocument, rest)

section
variable {step : Step Document} {level : Nat}

theorem items_write {x : Json} {xs : List Json} (h : ∀ y ∈ x :: xs, ReadsBack indent step level y)
    {fuel : Nat} (hf : xs.length < fuel) (outer : Nat) (rest : Text) :
    items step fuel (Json.writeAt indent level x ++ (Json.writeItems indent level xs ++
        (Json.lineBreak indent outer ++ .scalar ']' :: rest))) =
      .ok (x.toDocument :: Json.itemsToDocument xs, rest) := by
  induction xs generalizing x fuel with
  | nil =>
    obtain ⟨fuel, rfl⟩ : ∃ n, fuel = n + 1 := ⟨fuel - 1, by omega⟩
    have hx := h x List.mem_cons_self
      (Json.lineBreak indent outer ++ .scalar ']' :: rest)
      (endsNumeral_lineBreak indent outer (endsNumeral_cons (by decide)))
    rw [Json.writeItems, List.nil_append, items, hx]
    simp only [bind, Except.bind]
    rw [skipSpaces_lineBreak indent outer (by decide)]
    rfl
  | cons y ys ih =>
    obtain ⟨fuel, rfl⟩ : ∃ n, fuel = n + 1 := ⟨fuel - 1, by omega⟩
    rw [List.length_cons] at hf
    have hys := ih (fun z hz => h z (List.mem_cons_of_mem _ hz)) (by omega : ys.length < fuel)
    rw [Json.writeItems, Json.comma, List.cons_append, List.cons_append, List.cons_append,
      List.append_assoc, List.append_assoc]
    rw [items, h x List.mem_cons_self _ (endsNumeral_cons (by decide))]
    simp only [bind, Except.bind]
    rw [skipSpaces_cons (by decide)]
    simp only
    rw [skipSpaces_lineBreak_writeAt, hys]
    rfl

theorem entry_write {k : Text} {x : Json} (h : ReadsBack indent step level x) {rest : Text}
    (hr : EndsNumeral rest) :
    entry step (k.toJsonString ++ (Json.colon indent ++ (Json.writeAt indent level x ++ rest))) =
      .ok ((k, x.toDocument), rest) := by
  have hc : ∀ u, ∃ w, Json.colon indent ++ u = .scalar ':' :: w ∧ skipSpaces w = skipSpaces u := by
    intro u
    cases indent with
    | none => exact ⟨u, rfl, rfl⟩
    | some n => exact ⟨.scalar ' ' :: u, rfl, rfl⟩
  obtain ⟨w, hw, hs⟩ := hc (Json.writeAt indent level x ++ rest)
  rw [Text.toJsonString, hw, List.cons_append, List.cons_append, List.append_assoc, entry,
    List.singleton_append, stringBody_of_spelling _ (Text.spelling_escaped k)]
  simp only [bind, Except.bind]
  rw [skipSpaces_cons (by decide)]
  simp only
  rw [hs, skipSpaces_writeAt, h rest hr]

theorem entries_write {k : Text} {x : Json} {es : List (Text × Json)}
    (h : ∀ e ∈ (k, x) :: es, ReadsBack indent step level e.2) {fuel : Nat}
    (hf : es.length < fuel) (outer : Nat) (rest : Text) :
    entries step fuel (k.toJsonString ++ (Json.colon indent ++ (Json.writeAt indent level x ++
        (Json.writeEntries indent level es ++
          (Json.lineBreak indent outer ++ .scalar '\x7d' :: rest))))) =
      .ok ((k, x.toDocument) :: Json.entriesToDocument es, rest) := by
  induction es generalizing k x fuel with
  | nil =>
    obtain ⟨fuel, rfl⟩ : ∃ n, fuel = n + 1 := ⟨fuel - 1, by omega⟩
    have hend := endsNumeral_lineBreak indent outer (u := .scalar '\x7d' :: rest)
      (endsNumeral_cons (by decide))
    rw [Json.writeEntries, List.nil_append, entries,
      entry_write indent (h (k, x) List.mem_cons_self) hend]
    simp only [bind, Except.bind]
    rw [skipSpaces_lineBreak indent outer (by decide)]
    rfl
  | cons e es ih =>
    obtain ⟨l, y⟩ := e
    obtain ⟨fuel, rfl⟩ : ∃ n, fuel = n + 1 := ⟨fuel - 1, by omega⟩
    rw [List.length_cons] at hf
    have hes := ih (k := l) (x := y) (fun e he => h e (List.mem_cons_of_mem _ he))
      (by omega : es.length < fuel)
    simp only [Json.writeEntries, Json.comma, List.cons_append, List.append_assoc]
    rw [entries, entry_write indent (h (k, x) List.mem_cons_self) (endsNumeral_cons (by decide))]
    simp only [bind, Except.bind]
    rw [skipSpaces_cons (by decide)]
    simp only
    rw [Text.toJsonString, List.cons_append, List.cons_append,
      skipSpaces_lineBreak indent level (by decide)]
    rw [Text.toJsonString, List.cons_append, List.cons_append] at hes
    rw [hes]
    rfl

theorem array_write {bound : Nat} {x : Json} {xs : List Json}
    (h : ∀ y ∈ x :: xs, ReadsBack indent step (level + 1) y) (hb : xs.length < bound)
    (rest : Text) :
    array bound step (Json.lineBreak indent (level + 1) ++
        (Json.writeAt indent (level + 1) x ++ (Json.writeItems indent (level + 1) xs ++
          (Json.lineBreak indent level ++ .scalar ']' :: rest)))) =
      .ok (.arr (x.toDocument :: Json.itemsToDocument xs), rest) := by
  have hitems := items_write indent h hb level rest
  obtain ⟨c, u, hc, hv, hne⟩ := Json.exists_writeAt_cons indent (level + 1) x
  rw [hc, List.cons_append] at hitems ⊢
  rw [array, skipSpaces_lineBreak indent _ hv]
  split
  · next heq => exact absurd (List.cons.inj heq).1 hne
  · rw [hitems]
    rfl

theorem object_write {bound : Nat} {k : Text} {x : Json} {es : List (Text × Json)}
    (h : ∀ e ∈ (k, x) :: es, ReadsBack indent step (level + 1) e.2) (hb : es.length < bound)
    (hk : (Entries.keys ((k, x) :: es)).Nodup) (rest : Text) :
    object bound step (Json.lineBreak indent (level + 1) ++
        (k.toJsonString ++ (Json.colon indent ++ (Json.writeAt indent (level + 1) x ++
          (Json.writeEntries indent (level + 1) es ++
            (Json.lineBreak indent level ++ .scalar '\x7d' :: rest)))))) =
      .ok (.obj ((k, x.toDocument) :: Json.entriesToDocument es), rest) := by
  have hentries := entries_write indent h hb level rest
  rw [← Json.keys_entriesToDocument, Json.entriesToDocument] at hk
  rw [Text.toJsonString, List.cons_append, List.cons_append] at hentries ⊢
  rw [object, skipSpaces_lineBreak indent _ (by decide)]
  split
  · next heq => cases heq
  · rw [hentries]
    simp only [bind, Except.bind]
    rw [Entries.ofList_of_nodup hk]

end

/-! ### Values -/

/-- A written value is read back before whatever follows it, with enough nesting and room. -/
theorem value_writeAt (allow : Bool) (bound : Nat) {nesting level : Nat} {v : Json}
    (hn : v.height ≤ nesting) (hk : v.DistinctKeys)
    (hb : (Json.writeAt indent level v).length ≤ bound) :
    ReadsBack indent (value allow bound nesting) level v := by
  -- The induction is on the nesting, which the reader uses up at every bracket.
  induction nesting using Nat.strongRecOn generalizing level v with
  | ind nesting ih =>
  intro rest hr
  cases v with
  | null => exact value_eq_scalar (by decide) (by decide) (by decide)
  | bool b =>
    cases b
    · exact value_eq_scalar (by decide) (by decide) (by decide)
    · exact value_eq_scalar (by decide) (by decide) (by decide)
  | num x => exact value_of_numeral (x.numeral_toText hr)
  | str t =>
    rw [Json.writeAt, Text.toJsonString, List.cons_append, List.cons_append, List.append_assoc,
      List.singleton_append, value, stringBody_of_spelling _ (Text.spelling_escaped t)]
    rfl
  | arr xs =>
    rw [Data.height] at hn
    rw [Data.DistinctKeys, Data.distinctKeysItems_iff] at hk
    obtain ⟨nesting, rfl⟩ : ∃ n, nesting = n + 1 := ⟨nesting - 1, by omega⟩
    obtain ⟨hl, hle⟩ := Json.length_writeAt_arr indent level xs
    have h : ∀ x ∈ xs, ReadsBack indent (value allow bound nesting) (level + 1) x := by
      intro x hx
      have hn' := Data.height_le_heightItems hx
      exact ih nesting (Nat.lt_succ_self _) (by omega) (hk x hx) (Nat.le_trans (hle x hx) hb)
    cases xs with
    | nil => rfl
    | cons x xs =>
      have hx := array_write indent h (Nat.lt_of_lt_of_le (Nat.lt_of_succ_lt hl) hb) rest
      simp only [Json.writeAt, Json.enclose, List.append_assoc, List.cons_append]
      exact hx
  | obj es =>
    rw [Data.height] at hn
    rw [Data.DistinctKeys, Data.distinctKeysEntries_iff] at hk
    obtain ⟨nesting, rfl⟩ : ∃ n, nesting = n + 1 := ⟨nesting - 1, by omega⟩
    obtain ⟨hl, hle⟩ := Json.length_writeAt_obj indent level es
    have h : ∀ e ∈ es, ReadsBack indent (value allow bound nesting) (level + 1) e.2 := by
      intro e he
      have hn' := Data.height_le_heightEntries he
      exact ih nesting (Nat.lt_succ_self _) (by omega) (hk.2 e he) (Nat.le_trans (hle e he) hb)
    cases es with
    | nil => rfl
    | cons e es =>
      obtain ⟨k, x⟩ := e
      have hes := object_write indent h (Nat.lt_of_lt_of_le (Nat.lt_of_succ_lt hl) hb) hk.1 rest
      simp only [Json.writeAt, Json.enclose, List.append_assoc, List.cons_append]
      exact hes
  | ref body => exact body.elim

end Reader

namespace Json

/-- The text of a value gives that value again, with the entries of every object in the same
order, save for the signs of zeros. -/
theorem read_write (indent : Option Nat) {v : Json} (hk : v.DistinctKeys)
    (hn : v.height ≤ nestingLimit) : Json.read (v.write indent) = .ok v.unsigned := by
  have hd : Reader.document false (v.write indent) = .ok v.toDocument := by
    have h := Reader.value_writeAt indent false (v.write indent).length hn hk (Nat.le_refl _) []
      nofun
    have hs := Reader.skipSpaces_writeAt indent 0 v []
    obtain ⟨c, u, hc, hv, -⟩ := exists_writeAt_cons indent 0 v
    rw [List.append_nil] at h hs
    rw [write] at h ⊢
    rw [Reader.document, hs, h]
    · rfl
    · intro w hw
      rw [hc] at hw
      cases hw
      exact absurd hv (by decide)
  rw [Json.read, Document.read, hd]
  show v.toDocument.toJson.mapError ReadError.numeral = _
  rw [toJson_toDocument]
  rfl

end Json
end JsonQuery
