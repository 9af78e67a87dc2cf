/-
Strings are read back as they were written.

* `CodePoint.Spelling`, `Text.Spelling` — the ways in which a code point and a text are written
  inside a string;
* `Reader.stringBody_of_spelling` — documents give a spelled text back;
* `Lexeme.unescape_of_spelling` — and so do quoted identifiers;
* `Shielded` — the texts in which every delimiter stands behind a backslash.
-/
import JsonQuery.Json.Writer
import JsonQuery.Proofs.Text.Hex
import JsonQuery.Token.Scanner

namespace JsonQuery

/-! ### Spellings -/

/-- How a code point is written inside a string: by a letter, by its number or as itself. -/
inductive CodePoint.Spelling (c : CodePoint) : Text → Prop
  | letter {l} : Reader.letterEscape? l = some c → Spelling c [.scalar '\\', l]
  | number {ds} : c.toNat < 0x20 → Text.hexDigitsValue? ds = some c.toNat → ds.length = 4 →
      (∀ d ∈ ds, d.isIdentifierPart = true) → Spelling c (.scalar '\\' :: .scalar 'u' :: ds)
  | plain : c ≠ .scalar '\x22' → c ≠ .scalar '\\' → ¬ c.toNat < 0x20 → Spelling c [c]

theorem CodePoint.eq_ofNat_of_toNat {c : CodePoint} {n : Nat} (h : c.toNat = n) (hn : n < 0x80) :
    c = .ofNat n := by
  refine toNat_injective (h.trans ?_)
  have all : ∀ n < 0x80, (CodePoint.ofNat n).toNat = n := by decide
  exact (all n hn).symm

/-- A control character is the code point of its number and half of no pair. -/
theorem CodePoint.of_toNat_lt {c : CodePoint} (h : c.toNat < 0x20) :
    CodePoint.ofNat c.toNat = c ∧ isHighSurrogate c.toNat = false := by
  refine ⟨(eq_ofNat_of_toNat rfl (Nat.lt_trans h (by decide))).symm, ?_⟩
  simp only [isHighSurrogate, Bool.and_eq_false_iff, decide_eq_false_iff_not]
  omega

theorem CodePoint.spelling_escaped (c : CodePoint) : c.Spelling c.escaped := by
  unfold escaped
  split
  · next h =>
    rcases h with rfl | rfl
    · exact .letter rfl
    · exact .letter rfl
  split
  · next h =>
    subst h
    exact .letter rfl
  split
  · next h =>
    subst h
    exact .letter rfl
  split
  · next h =>
    subst h
    exact .letter rfl
  split
  · next h =>
    rw [eq_ofNat_of_toNat h (by decide)]
    exact .letter rfl
  split
  · next h =>
    rw [eq_ofNat_of_toNat h (by decide)]
    exact .letter rfl
  split
  · next h =>
    have hn : c.toNat < 16 ^ 4 := Nat.lt_trans h (by decide)
    have hv := Text.hexDigitsValue?_hex 3 hn
    exact .number h hv (Text.length_hex 3 hn) (Text.isIdentifierPart_of_hexDigitsValue? hv)
  · next h _ _ _ _ _ hn =>
    rw [not_or] at h
    exact .plain h.1 h.2 hn

theorem Reader.letterEscape?_ne {l c : CodePoint} (h : letterEscape? l = some c) :
    l ≠ .scalar 'u' := by
  rintro rfl
  cases h

theorem Reader.hex4?_append {ds : Text} (t : Text) (h : ds.length = 4) :
    hex4? (ds ++ t) = Text.hexDigitsValue? ds := by
  rw [hex4?, ← h, List.take_left, if_pos rfl]

/-! ### Escapes by number -/

theorem Reader.hex4?_eq_some {t : Text} {n : Nat} (h : hex4? t = some n) :
    ∃ ds r, t = ds ++ r ∧ ds.length = 4 ∧ ∀ d ∈ ds, d.isIdentifierPart = true := by
  unfold hex4? at h
  split at h
  · next hl =>
    exact ⟨_, _, (List.take_append_drop 4 t).symm, hl, Text.isIdentifierPart_of_hexDigitsValue? h⟩
  · cases h

/-- What an escape by number has behind its letter: digits, and perhaps the second half of a
pair. -/
inductive Text.EscapeDigits : Text → Prop
  | single {ds} : (∀ d ∈ ds, d.isIdentifierPart = true) → EscapeDigits ds
  | pair {ds es} : (∀ d ∈ ds, d.isIdentifierPart = true) → (∀ d ∈ es, d.isIdentifierPart = true) →
      EscapeDigits (ds ++ .scalar '\\' :: .scalar 'u' :: es)

/-- The second half of a surrogate pair, if its escape starts a text. -/
def Lexeme.lowHalf? : Text → Option Nat
  | .scalar '\\' :: .scalar 'u' :: t => (Reader.hex4? t).filter CodePoint.isLowSurrogate
  | _ => none

theorem Lexeme.hexEscape?_eq (t : Text) :
    hexEscape? t = (Reader.hex4? t).map fun n =>
      if CodePoint.isHighSurrogate n then
        match lowHalf? (t.drop 4) with
        | some low => (.ofNat (CodePoint.joinSurrogates n low), 10)
        | none => (.ofNat n, 4)
      else (.ofNat n, 4) := by
  have hlow (u : Text) {α : Type} (f : Nat → α) (y : α) :
      (match u with
        | .scalar '\\' :: .scalar 'u' :: rest =>
          match (Reader.hex4? rest).filter CodePoint.isLowSurrogate with
          | some low => f low
          | none => y
        | _ => y) = match lowHalf? u with
          | some low => f low
          | none => y := by
    unfold lowHalf?
    split
    · rfl
    · rfl
  rw [hexEscape?]
  congr 1
  funext n
  congr 1
  exact hlow _ (fun low => (CodePoint.ofNat (CodePoint.joinSurrogates n low), 10)) _

theorem Lexeme.escapeDigits_of_hexEscape? {t : Text} {c : CodePoint} {used : Nat}
    (h : hexEscape? t = some (c, used)) :
    ∃ u r, t = u ++ r ∧ u.length = used ∧ u.EscapeDigits := by
  rw [hexEscape?_eq] at h
  obtain ⟨n, hn, hc⟩ := Option.map_eq_some_iff.mp h
  obtain ⟨ds, r, rfl, hl, hds⟩ := Reader.hex4?_eq_some hn
  have hd : (ds ++ r).drop 4 = r := by rw [← hl, List.drop_left]
  have single : ∃ u r', ds ++ r = u ++ r' ∧ u.length = 4 ∧ u.EscapeDigits :=
    ⟨ds, r, rfl, hl, .single hds⟩
  rw [hd] at hc
  split at hc
  · split at hc
    · next low hlow =>
      obtain ⟨-, rfl⟩ := Prod.mk.inj hc
      unfold lowHalf? at hlow
      split at hlow
      · obtain ⟨hm, -⟩ := Option.filter_eq_some_iff.mp hlow
        obtain ⟨es, r, rfl, hl', hes⟩ := Reader.hex4?_eq_some hm
        refine ⟨ds ++ .scalar '\\' :: .scalar 'u' :: es, r, ?_, ?_, .pair hds hes⟩
        · simp only [List.append_assoc, List.cons_append]
        · simp only [List.length_append, List.length_cons, hl, hl']
      · cases hlow
    · obtain ⟨-, rfl⟩ := Prod.mk.inj hc
      exact single
  · obtain ⟨-, rfl⟩ := Prod.mk.inj hc
    exact single

/-- A quote is no digit, so digits that end before it are too few. -/
theorem Reader.hex4?_quote (b r : Text) :
    (if ((b ++ .scalar '\x22' :: r).drop 4).isEmpty then none
      else hex4? (b ++ .scalar '\x22' :: r)) = hex4? b := by
  by_cases hb : 4 ≤ b.length
  · have hd : (b ++ .scalar '\x22' :: r).drop 4 = b.drop 4 ++ .scalar '\x22' :: r :=
      List.drop_append_of_le_length hb
    have ht : (b ++ .scalar '\x22' :: r).take 4 = b.take 4 := List.take_append_of_le_length hb
    rw [hd, if_neg (by simp), hex4?, ht, hex4?]
  · have hnone : hex4? b = none := by
      rw [hex4?, if_neg]
      rw [List.length_take]
      omega
    have hquote : hex4? (b ++ .scalar '\x22' :: r) = none := by
      rw [Option.eq_none_iff_forall_ne_some]
      intro n hn
      obtain ⟨ds, r', hds, hl, hpart⟩ := hex4?_eq_some hn
      have hq : CodePoint.scalar '\x22' ∈ ds := by
        have ht := congrArg (List.take 4) hds
        rw [← hl, List.take_left, hl] at ht
        rw [← ht, List.take_append, List.mem_append]
        right
        obtain ⟨k, hk⟩ : ∃ k, 4 - b.length = k + 1 := ⟨4 - b.length - 1, by omega⟩
        rw [hk]
        exact List.mem_cons_self
      exact absurd (hpart _ hq) (by decide)
    rw [hnone, hquote, ite_self]

theorem Reader.lowHalf?_quote (b r : Text) :
    lowHalf? (b ++ .scalar '\x22' :: r) = Lexeme.lowHalf? b := by
  unfold Lexeme.lowHalf?
  split
  · next rest =>
    rw [← hex4?_quote rest r, List.cons_append, List.cons_append, lowHalf?]
    split
    · rfl
    · rfl
  · next h =>
    unfold lowHalf?
    split
    · next t ht =>
      rcases b with _ | ⟨c, _ | ⟨d, rest⟩⟩
      · cases ht
      · cases ht
      · cases ht
        exact absurd rfl (h rest)
    · rfl

/-- An escape by number is read before a quote as the quoted identifier reads it. -/
theorem Reader.hexEscape?_quote (b r : Text) :
    hexEscape? (b ++ .scalar '\x22' :: r) = Lexeme.hexEscape? b := by
  have h4 := hex4?_quote b r
  rw [hexEscape?, Lexeme.hexEscape?_eq, ← h4]
  split
  · rfl
  · next hd =>
    rw [if_neg hd] at h4
    cases hn : hex4? (b ++ .scalar '\x22' :: r) with
    | none => rfl
    | some n =>
      obtain ⟨ds, r', rfl, hl, -⟩ := hex4?_eq_some (h4.symm.trans hn)
      have hb : 4 ≤ (ds ++ r').length := by
        rw [List.length_append, hl]
        exact Nat.le_add_right 4 _
      rewrite [List.drop_append_of_le_length hb, lowHalf?_quote]
      rfl

theorem Lexeme.escapeDigits_of_append {u t : Text} {c : CodePoint}
    (h : hexEscape? (u ++ t) = some (c, u.length)) : u.EscapeDigits := by
  obtain ⟨v, r, ht, hl, hv⟩ := escapeDigits_of_hexEscape? h
  obtain ⟨rfl, -⟩ := List.append_inj ht hl.symm
  exact hv

theorem Lexeme.hexEscape?_append {ds t : Text} {c : CodePoint} (hc : c.toNat < 0x20)
    (hv : Text.hexDigitsValue? ds = some c.toNat) (hl : ds.length = 4) :
    hexEscape? (ds ++ t) = some (c, 4) := by
  obtain ⟨hof, hs⟩ := CodePoint.of_toNat_lt hc
  rw [hexEscape?, Reader.hex4?_append t hl, hv, Option.map_some, hs, if_neg Bool.false_ne_true, hof]

/-! ### Spelled texts -/

/-- How a text is written inside a string. -/
inductive Text.Spelling : Text → Text → Prop
  | nil : Spelling [] []
  | plain {c t s} : c ≠ .scalar '\x22' → c ≠ .scalar '\\' → ¬ c.toNat < 0x20 → Spelling t s →
      Spelling (c :: t) (c :: s)
  | letter {c l t s} : Reader.letterEscape? l = some c → Spelling t s →
      Spelling (c :: t) (.scalar '\\' :: l :: s)
  | number {c u t s} : Lexeme.hexEscape? (u ++ s) = some (c, u.length) → Spelling t s →
      Spelling (c :: t) (.scalar '\\' :: .scalar 'u' :: (u ++ s))

theorem Text.Spelling.cons {c : CodePoint} {u t s : Text} (hc : c.Spelling u)
    (h : t.Spelling s) : Spelling (c :: t) (u ++ s) := by
  cases hc with
  | letter hl => exact .letter hl h
  | @number ds hlt hv hl _ =>
    refine .number (u := ds) ?_ h
    rw [Lexeme.hexEscape?_append hlt hv hl, hl]
  | plain hq hb hlt => exact .plain hq hb hlt h

theorem Text.spelling_escaped (t : Text) : t.Spelling (t.flatMap CodePoint.escaped) := by
  induction t with
  | nil => exact .nil
  | cons c t ih =>
    rw [List.flatMap_cons]
    exact .cons c.spelling_escaped ih

theorem Reader.stringBody_skip (opening u t : Text) :
    stringBody opening u.length (u ++ t) = stringBody opening 0 t := by
  induction u with
  | nil => rfl
  | cons c u ih => rw [List.length_cons, List.cons_append, stringBody, ih]

/-- A spelled text is read back up to its closing quote, whatever stands behind it. -/
theorem Reader.stringBody_of_spelling (opening : Text) {t s : Text} (h : t.Spelling s)
    (rest : Text) : stringBody opening 0 (s ++ .scalar '\x22' :: rest) = .ok (t, rest) := by
  induction h with
  | nil =>
    rw [List.nil_append, stringBody.eq_def]
    dsimp only
    rw [if_pos rfl]
  | plain hq hb hlt _ ih =>
    rw [List.cons_append, stringBody.eq_def]
    dsimp only
    rw [if_neg hq, if_neg hb, if_neg hlt, ih]
    rfl
  | @letter c l t s hl _ ih =>
    have hskip := stringBody_skip opening [l] (s ++ .scalar '\x22' :: rest)
    rw [List.cons_append, List.cons_append, stringBody.eq_def]
    dsimp only
    rw [if_neg (by decide), if_pos rfl]
    split
    · next heq => cases heq
    · next heq => exact absurd (List.cons.inj heq).1 (letterEscape?_ne hl)
    · next heq =>
      cases heq
      rw [hl]
      dsimp only
      rw [List.singleton_append, List.length_singleton] at hskip
      rw [hskip, ih]
      rfl
  | @number c u t s hu _ ih =>
    have hskip := stringBody_skip opening (.scalar 'u' :: u) (s ++ .scalar '\x22' :: rest)
    rw [List.cons_append, List.length_cons] at hskip
    rw [List.cons_append, List.cons_append, stringBody, if_neg (by decide), if_pos rfl,
      hexEscape?_quote, hu, List.append_assoc]
    dsimp only
    rw [hskip, ih]
    rfl

theorem Lexeme.unescape_skip (offset : Nat) (u t : Text) :
    unescape offset u.length (u ++ t) = unescape (offset + u.length) 0 t := by
  induction u generalizing offset with
  | nil => rfl
  | cons c u ih =>
    rw [List.length_cons, List.cons_append, unescape, ih, Nat.add_assoc, Nat.add_comm 1]

/-- A name is read back from the body of its quoted identifier, however it is spelled. -/
theorem Lexeme.unescape_of_spelling (offset : Nat) {t s : Text} (h : t.Spelling s) :
    unescape offset 0 s = .ok t := by
  induction h generalizing offset with
  | nil => rfl
  | plain hq hb hlt _ ih =>
    rw [unescape.eq_def]
    dsimp only
    rw [if_neg hb, if_neg hlt, ih]
    rfl
  | @letter c l t s hl _ ih =>
    have hskip := unescape_skip (offset + 1) [l] s
    rw [unescape.eq_def]
    dsimp only
    rw [if_pos rfl]
    split
    · next heq => exact absurd (List.cons.inj heq).1 (Reader.letterEscape?_ne hl)
    · next heq =>
      cases heq
      rw [hl]
      dsimp only
      rw [List.singleton_append, List.length_singleton] at hskip
      rw [hskip, ih]
      rfl
    · next heq => cases heq
  | @number c u t s hu _ ih =>
    have hskip := unescape_skip (offset + 1) (.scalar 'u' :: u) s
    rw [List.cons_append, List.length_cons] at hskip
    rw [unescape, if_pos rfl, hu]
    dsimp only
    rw [hskip, ih]
    rfl

/-! ### Delimiters -/

/-- A text in which every delimiter, and every backslash that escapes nothing, stands behind a
backslash. -/
inductive Shielded (delimiter : CodePoint) : Text → Prop
  | nil : Shielded delimiter []
  | plain {c t} : c ≠ .scalar '\\' → c ≠ delimiter → Shielded delimiter t →
      Shielded delimiter (c :: t)
  | pair {c t} : Shielded delimiter t → Shielded delimiter (.scalar '\\' :: c :: t)

namespace Shielded
variable {delimiter : CodePoint} {s t : Text}

theorem append (hs : Shielded delimiter s) (ht : Shielded delimiter t) :
    Shielded delimiter (s ++ t) := by
  induction hs with
  | nil => exact ht
  | plain hb hc _ ih => exact .plain hb hc ih
  | pair _ ih => exact .pair ih

/-- Such a text is taken up to the delimiter behind it. -/
theorem delimited_eq (hd : delimiter ≠ .scalar '\\') (hs : Shielded delimiter s) (t : Text) :
    Lexeme.delimited delimiter (s ++ delimiter :: t) = some s := by
  induction hs with
  | nil =>
    rw [List.nil_append, Lexeme.delimited, if_pos rfl]
    · exact fun h _ => hd h
    · exact fun _ _ h _ => hd h
  | plain hb hc _ ih =>
    rw [List.cons_append, Lexeme.delimited, if_neg hc, ih]
    · rfl
    · exact fun h _ => hb h
    · exact fun _ _ h _ => hb h
  | pair _ ih =>
    rw [List.cons_append, List.cons_append, Lexeme.delimited, ih]
    rfl

theorem of_forall_identifierPart (hd : delimiter.isIdentifierPart = false)
    (h : ∀ c ∈ t, c.isIdentifierPart = true) : Shielded delimiter t := by
  induction t with
  | nil => exact .nil
  | cons c t ih =>
    obtain ⟨hc, ht⟩ := List.forall_mem_cons.mp h
    refine .plain ?_ ?_ (ih ht)
    · rintro rfl
      exact absurd hc (by decide)
    · rintro rfl
      exact absurd hc (by rw [hd]; decide)

end Shielded

theorem Text.EscapeDigits.shielded {delimiter : CodePoint} {u : Text} (h : u.EscapeDigits)
    (hd : delimiter.isIdentifierPart = false) : Shielded delimiter u := by
  cases h with
  | single hds => exact .of_forall_identifierPart hd hds
  | pair hds hes =>
    exact (Shielded.of_forall_identifierPart hd hds).append
      (.pair (.of_forall_identifierPart hd hes))

/-- The body of a quoted identifier holds no quote that ends it. -/
theorem Text.Spelling.shielded {t s : Text} (h : t.Spelling s) : Shielded (.scalar '\x22') s := by
  induction h with
  | nil => exact .nil
  | plain hq hb _ _ ih => exact .plain hb hq ih
  | letter _ _ ih => exact .pair ih
  | number hu _ ih =>
    exact .pair (((Lexeme.escapeDigits_of_append hu).shielded (by decide)).append ih)

end JsonQuery
