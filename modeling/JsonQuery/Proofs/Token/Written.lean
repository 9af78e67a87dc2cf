/-
Tokens with blanks between them are read back.

* `Lexeme.Writes` — how the lexemes of each kind are written;
* `Written` — a lexeme as it is written, with the blanks before it;
* `Tokens.ofSource_written` — written one after the other, with at least one blank between them,
  lexemes are read as they are, at the offsets where they were written.
-/
import JsonQuery.Proofs.Token.Quoted

namespace JsonQuery

open Grammar

/-! ### How lexemes are written -/

namespace Lexeme

/-- How a lexeme is written: a quoted identifier and a literal with any JSON text of the name or
value, and a raw string with a backslash before every quote and backslash. -/
inductive Writes : Lexeme → Text → Prop
  | identifier {name} : name.isIdentifier = true → Writes (.identifier name) name
  | quotedIdentifier {name s} :
      Json.read (.scalar '\x22' :: (s ++ [.scalar '\x22'])) = .ok (.str name) →
      Writes (.quotedIdentifier name) (.scalar '\x22' :: (s ++ [.scalar '\x22']))
  | rawString (t) : Writes (.rawString t) (.scalar '\x27' :: (rawBody t ++ [.scalar '\x27']))
  | literal {t v} : Json.read t = .ok v →
      Writes (.literal v) (literalMark :: (literalBody t ++ [literalMark]))
  | number {i : Int} : (Nat.toDigits 10 i.natAbs).length ≤ Text.intDigitLimit →
      Writes (.number i) (Text.ofInt i)
  | symbol (s) : Writes (.symbol s) (Text.ofString s.text)

/-- The JSON text of a name, as documents are written, is one that its quoted identifier can be
written with. -/
theorem Writes.toJsonString (name : Text) : Writes (.quotedIdentifier name) name.toJsonString :=
  .quotedIdentifier (Json.read_quoted.mpr name.spelling_escaped)

theorem endsBefore_of_blank (l : Lexeme) {t : Text}
    (ht : ∀ d ∈ t.head?, Reader.isSpace d = true) : l.EndsBefore t := by
  intro d hd
  have hs := ht d hd
  cases l with
  | identifier => exact isIdentifierPart_of_isSpace hs
  | number => exact isDigit_of_isSpace hs
  | symbol s => rcases isSpace_cases hs with rfl | rfl | rfl | rfl <;> cases s <;> rfl
  | _ => rfl

/-- A lexeme is taken from the start of what is written, before a blank or the end. -/
theorem Writes.take_eq {l : Lexeme} {u : Text} (h : l.Writes u) {t : Text}
    (ht : ∀ d ∈ t.head?, Reader.isSpace d = true) :
    ∃ c v, u = c :: v ∧ Reader.isSpace c = false ∧ take c (v ++ t) = .ok (l, v.length) := by
  cases h with
  | identifier h => exact take_text (l := .identifier u) h (endsBefore_of_blank _ ht)
  | rawString s => exact take_text (l := .rawString s) trivial (endsBefore_of_blank _ ht)
  | @number i h => exact take_text (l := .number i) h (endsBefore_of_blank _ ht)
  | symbol s => exact take_text (l := .symbol s) trivial (endsBefore_of_blank _ ht)
  | @quotedIdentifier name s h =>
    refine ⟨_, s ++ [.scalar '\x22'], rfl, by decide, ?_⟩
    rw [List.append_assoc, List.singleton_append, take_quotedIdentifier (Json.read_quoted.mp h),
      List.length_append]
    rfl
  | @literal s v h =>
    refine ⟨_, literalBody s ++ [literalMark], rfl, by decide, ?_⟩
    rw [List.append_assoc, List.singleton_append, take_literal h, List.length_append]
    rfl

end Lexeme

/-! ### Lexemes one after the other -/

/-- A lexeme as it is written, with the blanks before it. -/
structure Written where
  gap : Text
  lexeme : Lexeme
  text : Text
  blank : gap.Blank
  writes : lexeme.Writes text

namespace Written

/-- The blanks before a lexeme and its text. -/
def source (w : Written) : Text :=
  w.gap ++ w.text

/-- The tokens of lexemes that are written from an offset on. -/
def tokens : (offset : Nat) → List Written → List Token
  | _, [] => []
  | offset, w :: ws =>
    ⟨w.lexeme, offset + w.gap.length⟩ :: tokens (offset + w.gap.length + w.text.length) ws

/-- What is written behind a lexeme starts with a blank. -/
theorem head_blank {ws : List Written} (h : ∀ w ∈ ws.head?, w.gap ≠ []) {last : Text}
    (hlast : last.Blank) :
    ∀ d ∈ (ws.flatMap source ++ last).head?, Reader.isSpace d = true := by
  cases ws with
  | nil => exact fun d hd => hlast d (List.mem_of_mem_head? hd)
  | cons w ws =>
    obtain ⟨c, gap, hc⟩ := List.exists_cons_of_ne_nil (h w rfl)
    have hblank := w.blank
    rw [hc] at hblank
    intro d hd
    rw [List.flatMap_cons, source, hc] at hd
    cases hd
    exact hblank c List.mem_cons_self

theorem scan_eq {ws : List Written} (h : ∀ w ∈ ws.tail, w.gap ≠ []) {last : Text}
    (hlast : last.Blank) (offset : Nat) :
    Token.scan offset 0 (ws.flatMap source ++ last) = .ok (tokens offset ws) := by
  induction ws generalizing offset with
  | nil =>
    rw [List.flatMap_nil, List.nil_append, ← List.append_nil last, Token.scan_blank hlast]
    rfl
  | cons w ws ih =>
    -- The lexeme is taken up to the blank behind it, so the rest is scanned on its own.
    have hfirst : ∀ w' ∈ ws.head?, w'.gap ≠ [] := fun w' hw => h w' (List.mem_of_mem_head? hw)
    have hhead := head_blank hfirst hlast
    obtain ⟨c, v, hcv, hc, htake⟩ := w.writes.take_eq hhead
    have hws := ih (fun w' hw => h w' (List.mem_of_mem_tail hw))
      (offset + w.gap.length + w.text.length)
    rw [List.flatMap_cons, source, List.append_assoc, List.append_assoc,
      Token.scan_blank w.blank, hcv, List.cons_append, Token.scan,
      if_neg (by rw [hc]; exact Bool.false_ne_true), htake]
    dsimp only
    rw [hcv, List.length_cons, ← Nat.add_assoc, Nat.add_right_comm] at hws
    rw [Token.scan_skip, hws, tokens, hcv, List.length_cons, ← Nat.add_assoc, Nat.add_right_comm]
    rfl

end Written

/-- Lexemes that are written one after the other, with at least one blank between them, are read as
they are, at the offsets where they were written. -/
theorem Tokens.ofSource_written (ws : List Written) (hgap : ∀ w ∈ ws.tail, w.gap ≠ [])
    {last : Text} (hlast : last.Blank) :
    Tokens.ofSource (ws.flatMap Written.source ++ last) =
      .ok ⟨Written.tokens 0 ws, (ws.flatMap Written.source ++ last).length⟩ := by
  rw [ofSource, Written.scan_eq hgap hlast]
  rfl

theorem Tokens.ofSource_written_mixed :
    Text.Blank " " ∧ Tokens.ofSource "[? \"a\\\"\\\\\"\t'it\\'s'\n\n\x60[\"\\\x60\"]\x60 -12 " =
      .ok ⟨[⟨.symbol .filter, 0⟩, ⟨.quotedIdentifier "a\"\\", 3⟩, ⟨.rawString "it's", 11⟩,
        ⟨.literal (.arr [.str "\x60"]), 20⟩, ⟨.number (-12), 29⟩], 33⟩ := by
  have hblank : Text.Blank " " := by decide
  refine ⟨hblank, ?_⟩
  exact Tokens.ofSource_written
    [⟨[], _, _, by decide, .symbol .filter⟩,
      ⟨" ", _, _, by decide, .toJsonString "a\"\\"⟩,
      ⟨"\t", _, _, by decide, .rawString "it's"⟩,
      ⟨"\n\n", _, _, by decide, .literal (t := "[\"\x60\"]") (v := .arr [.str "\x60"]) rfl⟩,
      ⟨" ", _, _, by decide, .number (i := -12) (by decide)⟩] (by decide) hblank

end JsonQuery
