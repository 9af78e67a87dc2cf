/-
Quoted identifiers are JSON strings.

A quoted identifier is first cut off at the quote that closes it, and then decoded; the string of a
document is decoded while it is read.  Both give a name exactly for the texts that spell it, so they
are read from the same texts, up to the same place, and say the same.

* `Lexeme.unescape_eq_ok` — what the body of a quoted identifier is decoded to;
* `Lexeme.take_quoted_eq_ok` — a quoted identifier is taken where a string is read;
* `Json.read_string`, `Token.scan_quoted` — a text that starts with a quote as a string, and as one
  quoted identifier;
* `Tokens.ofSource_quoted_iff` — it is the one if it is the other.
-/
import JsonQuery.Proofs.Token.Layout

namespace JsonQuery

open Grammar

/-! ### Decoding -/

namespace Shielded
variable {delimiter : CodePoint} {t : Text}

theorem of_append_digits {ds : Text} (hds : ∀ d ∈ ds, d.isIdentifierPart = true)
    (h : Shielded delimiter (ds ++ t)) : Shielded delimiter t := by
  induction ds with
  | nil => exact h
  | cons d ds ih =>
    obtain ⟨hd, hds⟩ := List.forall_mem_cons.mp hds
    rw [List.cons_append] at h
    generalize hr : ds ++ t = r at h
    cases h with
    | plain _ _ h => exact ih hds (hr ▸ h)
    | pair => exact absurd hd (by decide)

/-- What stands behind an escape by number is shielded as the whole is. -/
theorem of_append {u : Text} (hu : u.EscapeDigits) (h : Shielded delimiter (u ++ t)) :
    Shielded delimiter t := by
  cases hu with
  | single hds => exact of_append_digits hds h
  | pair hds hes =>
    rw [List.append_assoc] at h
    have hpair := of_append_digits hds h
    rw [List.cons_append] at hpair
    cases hpair with
    | plain hb => exact absurd rfl hb
    | pair hpair => exact of_append_digits hes hpair

end Shielded

namespace Lexeme

/-- The body of a quoted identifier, in which every quote stands behind a backslash, is decoded to
the name that it spells. -/
theorem unescape_eq_ok {offset : Nat} {name s : Text} (hs : Shielded (.scalar '\x22') s) :
    unescape offset 0 s = .ok name ↔ name.Spelling s := by
  refine ⟨fun h => ?_, unescape_of_spelling offset⟩
  -- Escapes take more than one code point, so the induction is on the length of the body.
  induction hn : s.length using Nat.strongRecOn generalizing offset name s with
  | ind n ih =>
  cases hs with
  | nil =>
    cases h
    exact .nil
  | @plain c t hb hq ht =>
    rw [List.length_cons] at hn
    rw [unescape.eq_def] at h
    dsimp only at h
    rw [if_neg hb] at h
    split at h
    · cases h
    · next hlt =>
      obtain ⟨name, hname, rfl⟩ := map_eq_ok.mp h
      exact .plain hq hb hlt (ih t.length (by omega) ht hname rfl)
  | @pair c t ht =>
    rw [List.length_cons, List.length_cons] at hn
    rw [unescape.eq_def] at h
    dsimp only at h
    rw [if_pos rfl] at h
    split at h
    · next digits heq =>
      cases heq
      split at h
      · next x used hx =>
        obtain ⟨name, hname, rfl⟩ := map_eq_ok.mp h
        obtain ⟨u, r, rfl, rfl, hu⟩ := escapeDigits_of_hexEscape? hx
        have hskip := unescape_skip (offset + 1) (.scalar 'u' :: u) r
        rw [List.cons_append, List.length_cons] at hskip
        rw [hskip] at hname
        rw [List.length_append] at hn
        exact .number hx (ih r.length (by omega) (ht.of_append hu) hname rfl)
      · cases h
    · next letter t' _ heq =>
      cases heq
      split at h
      · next x hx =>
        obtain ⟨name, hname, rfl⟩ := map_eq_ok.mp h
        have hskip := unescape_skip (offset + 1) [c] t
        rw [List.singleton_append, List.length_singleton] at hskip
        rw [hskip] at hname
        exact .letter hx (ih t.length (by omega) ht hname rfl)
      · cases h
    · next heq => cases heq

/-- A quoted identifier is taken from a text up to the quote behind a spelling of its name. -/
theorem take_quoted_eq_ok {t : Text} {l : Lexeme} {used : Nat} :
    take (.scalar '\x22') t = .ok (l, used) ↔
      ∃ name s r, l = .quotedIdentifier name ∧ name.Spelling s ∧
        t = s ++ .scalar '\x22' :: r ∧ used = s.length + 1 := by
  constructor
  · intro h
    rw [take, if_neg (by decide), if_neg (by decide), if_neg (by decide), if_pos rfl] at h
    obtain ⟨body, hbody, h⟩ := bind_eq_ok.mp h
    obtain ⟨name, hname, h⟩ := bind_eq_ok.mp h
    cases h
    have hbody := mapError_eq_ok.mp hbody
    unfold takeDelimited at hbody
    split at hbody
    · next body' hd =>
      cases hbody
      obtain ⟨r, rfl⟩ := delimited_eq_some hd
      exact ⟨name, body, r, rfl, (unescape_eq_ok (shielded_of_delimited hd)).mp
        (mapError_eq_ok.mp hname), by simp, rfl⟩
    · cases hbody
  · rintro ⟨name, s, r, rfl, hs, rfl, rfl⟩
    exact take_quotedIdentifier hs r

end Lexeme

/-! ### Strings -/

theorem Document.eq_str_of_toJson {d : Document} {text : Text} (h : d.toJson = .ok (.str text)) :
    d = .str text := by
  cases d with
  | str => cases h; rfl
  | null | bool => cases h
  | num n => obtain ⟨x, -, hx⟩ := map_eq_ok.mp h; cases hx
  | arr xs => obtain ⟨x, -, hx⟩ := map_eq_ok.mp h; cases hx
  | obj es => obtain ⟨x, -, hx⟩ := map_eq_ok.mp h; cases hx

/-- A text that starts with a quote is the JSON text of a string if it spells that string up to the
next quote, with only blanks behind it. -/
theorem Json.read_string {text t : Text} :
    Json.read (.scalar '\x22' :: t) = .ok (.str text) ↔
      ∃ s b, text.Spelling s ∧ Text.Blank b ∧ t = s ++ .scalar '\x22' :: b := by
  constructor
  · intro h
    obtain ⟨d, hd, hv⟩ := bind_eq_ok.mp h
    have hd := mapError_eq_ok.mp hd
    rw [Document.eq_str_of_toJson (mapError_eq_ok.mp hv), Reader.document] at hd
    · rw [Reader.skipSpaces_cons (by decide), Reader.value] at hd
      obtain ⟨⟨d', rest⟩, hvalue, hend⟩ := bind_eq_ok.mp hd
      obtain ⟨⟨text', rest'⟩, hbody, hd'⟩ := map_eq_ok.mp hvalue
      cases hd'
      obtain ⟨s, hs, rfl⟩ := Reader.stringBody_eq_ok.mp hbody
      obtain ⟨b, hb, hrest⟩ := Reader.exists_skipSpaces rest
      dsimp only at hend
      split at hend
      · next hnil =>
        cases hend
        rw [hnil, List.append_nil] at hrest
        exact ⟨s, rest, hs, hrest ▸ hb, rfl⟩
      · cases hend
    · intro _ h
      cases h
  · rintro ⟨s, b, hs, hb, rfl⟩
    have hskip : Reader.skipSpaces b = [] := by
      rw [Reader.skipSpaces, ← List.append_nil b, List.dropWhile_append_of_pos hb,
        List.dropWhile_nil]
    have hd : Reader.document false (.scalar '\x22' :: (s ++ .scalar '\x22' :: b)) =
        .ok (.str text) := by
      rw [Reader.document, Reader.skipSpaces_cons (by decide), Reader.value,
        Reader.stringBody_of_spelling _ hs]
      · dsimp only [bind, Except.bind, Except.map]
        rw [hskip]
      · intro _ h
        cases h
    exact bind_eq_ok.mpr ⟨_, mapError_eq_ok.mpr hd, rfl⟩

/-- A text between quotes is the JSON text of what it spells. -/
theorem Json.read_quoted {text s : Text} :
    Json.read (.scalar '\x22' :: (s ++ [.scalar '\x22'])) = .ok (.str text) ↔
      text.Spelling s := by
  rw [Json.read_string]
  constructor
  · rintro ⟨s', b, hs, hb, heq⟩
    -- Behind the closing quote there are blanks alone, and the text ends with a quote.
    rcases List.eq_nil_or_concat' b with rfl | ⟨u, c, rfl⟩
    · rwa [List.append_inj_left' heq rfl]
    · have hsplit : s ++ [.scalar '\x22'] = (s' ++ .scalar '\x22' :: u) ++ [c] := by
        rw [heq, List.append_assoc, List.cons_append]
      obtain rfl := (List.cons.inj (List.append_inj_right' hsplit rfl)).1
      exact absurd (hb _ (List.mem_append_right u List.mem_cons_self)) (by decide)
  · intro hs
    exact ⟨s, [], hs, nofun, rfl⟩

/-! ### Tokens -/

/-- A text without tokens is blank. -/
theorem Token.scan_eq_nil {offset : Nat} {t : Text} : scan offset 0 t = .ok [] ↔ t.Blank := by
  constructor
  · intro h
    induction t generalizing offset with
    | nil => exact nofun
    | cons c t ih =>
      rw [scan] at h
      split at h
      · next hc => exact List.forall_mem_cons.mpr ⟨hc, ih h⟩
      · split at h
        · obtain ⟨ts, -, hts⟩ := map_eq_ok.mp h
          cases hts
        · cases h
  · intro hb
    rw [← List.append_nil t, scan_blank hb]
    rfl

/-- A text that starts with a quote is one quoted identifier if it spells its name up to the next
quote, with only blanks behind it. -/
theorem Token.scan_quoted (offset : Nat) {name t : Text} :
    scan offset 0 (.scalar '\x22' :: t) = .ok [⟨.quotedIdentifier name, offset⟩] ↔
      ∃ s b, name.Spelling s ∧ Text.Blank b ∧ t = s ++ .scalar '\x22' :: b := by
  have hquote : ¬ Reader.isSpace (.scalar '\x22') = true := by decide
  have hskip (s b : Text) : scan (offset + 1) (s.length + 1) (s ++ .scalar '\x22' :: b) =
      scan (offset + 1 + (s.length + 1)) 0 b := by
    have := scan_skip (offset + 1) (s ++ [.scalar '\x22']) b
    simpa using this
  rw [scan, if_neg hquote]
  constructor
  · intro h
    split at h
    · next l used htake =>
      obtain ⟨name', s, b, rfl, hs, rfl, rfl⟩ := Lexeme.take_quoted_eq_ok.mp htake
      obtain ⟨ts, hts, heq⟩ := map_eq_ok.mp h
      cases heq
      rw [hskip] at hts
      exact ⟨s, b, hs, scan_eq_nil.mp hts, rfl⟩
    · cases h
  · rintro ⟨s, b, hs, hb, rfl⟩
    rw [Lexeme.take_quotedIdentifier hs]
    dsimp only
    rw [hskip, scan_eq_nil.mpr hb]
    rfl

/-- A text that starts with a quote is one quoted identifier, with blanks behind it, exactly if it
is the JSON text of a string; and then that string is its name. -/
theorem Tokens.ofSource_quoted_iff (t name : Text) :
    Tokens.ofSource (.scalar '\x22' :: t) =
        .ok ⟨[⟨.quotedIdentifier name, 0⟩], (.scalar '\x22' :: t : Text).length⟩ ↔
      Json.read (.scalar '\x22' :: t) = .ok (.str name) := by
  rw [Json.read_string, ← Token.scan_quoted 0, ofSource, map_eq_ok]
  constructor
  · rintro ⟨ts, hts, heq⟩
    rw [hts, (Tokens.mk.inj heq).1]
  · intro h
    exact ⟨_, h, rfl⟩

end JsonQuery
