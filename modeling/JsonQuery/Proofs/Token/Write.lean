/-
Tokens are read back as they were written.

* `Lexeme.text` — how a lexeme is written, with a backslash before what would end it too soon;
* `Lexeme.Writable` — the lexemes whose text can be read;
* `Lexeme.EndsBefore`, `Legible` — the lexemes that may be written one after the other;
* `Lexeme.take_text` — a lexeme is taken from the start of a text, up to where it ends;
* `spells_text` — the texts of some lexemes, put together, spell them, save for the signs of zeros
  in literals.
-/
import JsonQuery.Proofs.Grammar.Source
import JsonQuery.Proofs.Json.Extent
import JsonQuery.Registry

namespace JsonQuery

open Grammar

/-! ### How lexemes are written -/

namespace Lexeme

/-- The body of a raw string: quotes and backslashes stand behind backslashes. -/
def rawBody (t : Text) : Text :=
  t.flatMap fun c => if c = .scalar '\x27' ∨ c = .scalar '\\' then [.scalar '\\', c] else [c]

/-- How a lexeme is written. -/
def text : Lexeme → Text
  | .identifier name => name
  | .quotedIdentifier name => name.toJsonString
  | .rawString t => .scalar '\x27' :: (rawBody t ++ [.scalar '\x27'])
  | .literal value => literalMark :: (literalBody (value.write none) ++ [literalMark])
  | .number i => Text.ofInt i
  | .symbol s => s.text

/-- A lexeme with the zeros of its literal positive. -/
def unsigned : Lexeme → Lexeme
  | .literal value => .literal value.unsigned
  | l => l

/-- The lexemes whose text can be read: names that need no quotes have none, integers are not too
long and literals are not nested too deeply. -/
def Writable : Lexeme → Prop
  | .identifier name => name.isIdentifier = true
  | .literal value => value.DistinctKeys ∧ value.height ≤ nestingLimit
  | .number i => (Nat.toDigits 10 i.natAbs).length ≤ Text.intDigitLimit
  | _ => True

instance (i : Int) : Decidable (Lexeme.number i).Writable :=
  inferInstanceAs (Decidable (_ ≤ _))

end Lexeme

/-- The characters that make a symbol a longer one. -/
def Symbol.growth : Symbol → List Char
  | .leftBracket => [']', '?']
  | .pipe => ['|']
  | .ampersand => ['&']
  | .not | .lt | .gt => ['=']
  | _ => []

namespace Lexeme

/-- Whether a lexeme goes on into a code point behind it. -/
def goesOn (c : CodePoint) : Lexeme → Bool
  | .identifier _ => c.isIdentifierPart
  | .number _ => c.isDigit
  | .symbol s => s.growth.any fun d => .scalar d == c
  | _ => false

/-- A lexeme does not go on into a text behind it. -/
def EndsBefore (l : Lexeme) (t : Text) : Prop :=
  ∀ c ∈ t.head?, l.goesOn c = false

theorem endsBefore_cons {l : Lexeme} {c : CodePoint} (h : l.goesOn c = false) (t : Text) :
    l.EndsBefore (c :: t) := by
  rintro d ⟨⟩
  exact h

end Lexeme

/-- Lexemes that can be written one after the other without anything between them. -/
def Legible : List Lexeme → Prop
  | [] => True
  | l :: ls => l.Writable ∧ l.EndsBefore (ls.flatMap Lexeme.text) ∧ Legible ls

/-! ### How they are taken -/

namespace Lexeme

theorem rawText_rawBody (t : Text) : rawText (rawBody t) = t := by
  induction t with
  | nil => rfl
  | cons c t ih =>
    rw [rawBody, List.flatMap_cons, ← rawBody]
    split
    · next h =>
      rcases h with rfl | rfl
      · exact congrArg (_ :: ·) ih
      · exact congrArg (_ :: ·) ih
    · next h =>
      rw [not_or] at h
      rw [List.singleton_append, rawText, ih]
      · exact fun _ hc _ => h.2 hc
      · exact fun _ hc _ => h.2 hc

theorem shielded_rawBody (t : Text) : Shielded (.scalar '\x27') (rawBody t) := by
  induction t with
  | nil => exact .nil
  | cons c t ih =>
    rw [rawBody, List.flatMap_cons, ← rawBody]
    split
    · exact .pair ih
    · next h =>
      rw [not_or] at h
      exact .plain h.2 h.1 ih

/-- The longest symbol at the start of a text is the one written there. -/
theorem symbol?_text (s : Symbol) {t : Text} (h : (Lexeme.symbol s).EndsBefore t) :
    symbol? (Text.ofString s.text ++ t) = some s := by
  cases t with
  | nil => cases s <;> rfl
  | cons c t =>
    have hc := h c rfl
    -- Only the symbols that grow look at what stands behind them.
    cases s <;> first
      | rfl
      | simp only [goesOn, Symbol.growth, List.any_cons, List.any_nil, Bool.or_false,
          Bool.or_eq_false_iff] at hc
        simp [symbol?, Symbol.all, Symbol.text, Text.ofString, Text.ofChars, List.isPrefixOf, hc]

/-- A symbol is taken from the start of a text if no longer one stands there. -/
theorem take_symbol (s : Symbol) :
    ∃ c u, Text.ofString s.text = c :: u ∧ Reader.isSpace c = false ∧
      ∀ t, symbol? (c :: t) = some s → take c t = .ok (.symbol s, u.length) := by
  cases s <;>
    · refine ⟨_, _, rfl, rfl, fun t h => ?_⟩
      rw [take, h]
      rfl

/-- A run of code points is taken up to where it does not go on. -/
theorem takeWhile_append {p : CodePoint → Bool} {u t : Text} (hu : ∀ d ∈ u, p d = true)
    (ht : ∀ c ∈ t.head?, p c = false) : (u ++ t).takeWhile p = u := by
  rw [List.takeWhile_append_of_pos hu]
  cases t with
  | nil => rw [List.takeWhile_nil, List.append_nil]
  | cons c t =>
    rw [List.takeWhile_cons_of_neg (by rw [ht c rfl]; exact Bool.false_ne_true), List.append_nil]

theorem takeDelimited_shielded {delimiter : CodePoint} {s : Text} (hd : delimiter ≠ .scalar '\\')
    (hs : Shielded delimiter s) (t : Text) :
    takeDelimited delimiter (s ++ delimiter :: t) = .ok s := by
  rw [takeDelimited, hs.delimited_eq hd]

theorem isSpace_of_isIdentifierStart {c : CodePoint} (h : c.isIdentifierStart = true) :
    Reader.isSpace c = false := by
  simp only [Reader.isSpace, Bool.or_eq_false_iff, beq_eq_false_iff_ne]
  refine ⟨⟨⟨?_, ?_⟩, ?_⟩, ?_⟩ <;>
    · rintro rfl
      revert h
      decide

theorem take_identifier {c : CodePoint} {u t : Text} (hc : c.isIdentifierStart = true)
    (hu : ∀ d ∈ u, d.isIdentifierPart = true) (ht : ∀ d ∈ t.head?, d.isIdentifierPart = false) :
    take c (u ++ t) = .ok (.identifier (c :: u), u.length) := by
  rw [take, if_pos hc, takeWhile_append hu ht]

theorem take_digits {c : CodePoint} {u t : Text} (hu : ∀ d ∈ c :: u, d.isDigit = true)
    (hl : (c :: u).length ≤ Text.intDigitLimit) (ht : ∀ d ∈ t.head?, d.isDigit = false) :
    take c (u ++ t) = .ok (.number (Text.digitsValue (c :: u)), u.length) := by
  obtain ⟨hc, hu⟩ := List.forall_mem_cons.mp hu
  have hs : ¬ c.isIdentifierStart = true := by
    simp only [CodePoint.isDigit, CodePoint.isIdentifierStart, Bool.and_eq_true, Bool.or_eq_true,
      decide_eq_true_eq, beq_iff_eq] at hc ⊢
    omega
  rw [take, if_neg hs, if_pos hc, takeWhile_append hu ht]
  dsimp only
  rw [ofDigits, if_neg (Nat.not_lt.mpr hl)]
  rfl

theorem take_negative {u t : Text} (hu : ∀ d ∈ u, d.isDigit = true) (hn : u ≠ [])
    (hl : u.length ≤ Text.intDigitLimit) (ht : ∀ d ∈ t.head?, d.isDigit = false) :
    take (.scalar '-') (u ++ t) = .ok (.number (-Text.digitsValue u), u.length) := by
  have he : ¬ u.isEmpty = true := by rwa [List.isEmpty_iff]
  rw [take, if_neg (by decide), if_neg (by decide), if_pos rfl, takeWhile_append hu ht]
  dsimp only
  rw [if_neg he, ofDigits, if_neg (Nat.not_lt.mpr hl)]
  rfl

/-- A quoted identifier is taken however its name is spelled. -/
theorem take_quotedIdentifier {name s : Text} (h : name.Spelling s) (t : Text) :
    take (.scalar '\x22') (s ++ .scalar '\x22' :: t) =
      .ok (.quotedIdentifier name, s.length + 1) := by
  rw [take, if_neg (by decide), if_neg (by decide), if_neg (by decide), if_pos rfl,
    takeDelimited_shielded (by decide) h.shielded]
  dsimp only [mapError_ok, bind, Except.bind]
  rw [unescape_of_spelling 1 h]
  rfl

theorem take_rawString (s t : Text) :
    take (.scalar '\x27') (rawBody s ++ .scalar '\x27' :: t) =
      .ok (.rawString s, (rawBody s).length + 1) := by
  rw [take, if_neg (by decide), if_neg (by decide), if_neg (by decide), if_neg (by decide),
    if_pos rfl, takeDelimited_shielded (by decide) (shielded_rawBody s)]
  dsimp only [mapError_ok, bind, Except.bind]
  rw [rawText_rawBody]

/-- Every JSON text gives its value as a literal. -/
theorem take_literal {u : Text} {v : Json} (h : Json.read u = .ok v) (t : Text) :
    take literalMark (literalBody u ++ literalMark :: t) =
      .ok (.literal v, (literalBody u).length + 1) := by
  obtain ⟨hs, hstrip⟩ := Json.read_strip h
  rw [take, if_neg (by decide), if_neg (by decide), if_neg (by decide), if_neg (by decide),
    if_neg (by decide), if_pos rfl, takeDelimited_shielded (by decide) hs]
  dsimp only [mapError_ok, bind, Except.bind]
  rw [literalValue, literalText_literalBody, hstrip]
  rfl

theorem take_number {i : Int} (hl : (Nat.toDigits 10 i.natAbs).length ≤ Text.intDigitLimit)
    {t : Text} (ht : ∀ d ∈ t.head?, d.isDigit = false) :
    ∃ c u, Text.ofInt i = c :: u ∧ take c (u ++ t) = .ok (.number i, u.length) := by
  have hlen : (Text.ofNat i.natAbs).length ≤ Text.intDigitLimit := by
    rw [Text.ofNat, Text.ofChars, List.length_map]
    exact hl
  cases i with
  | ofNat n =>
    obtain ⟨c, u, hc⟩ := List.exists_cons_of_ne_nil (Text.ofNat_ne_nil n)
    have hd := Text.isDigit_ofNat n
    have hv := Text.digitsValue_ofNat n
    rw [Int.natAbs_ofNat'] at hlen
    rw [hc] at hd hv hlen
    refine ⟨c, u, hc, ?_⟩
    rw [take_digits hd hlen ht, hv]
    rfl
  | negSucc n =>
    refine ⟨.scalar '-', Text.ofNat (n + 1), rfl, ?_⟩
    rw [Int.natAbs_negSucc] at hlen
    rw [take_negative (Text.isDigit_ofNat _) (Text.ofNat_ne_nil _) hlen ht,
      Text.digitsValue_ofNat]
    rfl

/-- A lexeme is taken from the start of a text, up to where it ends. -/
theorem take_text {l : Lexeme} (hw : l.Writable) {t : Text} (ht : l.EndsBefore t) :
    ∃ c u, l.text = c :: u ∧ Reader.isSpace c = false ∧
      take c (u ++ t) = .ok (l.unsigned, u.length) := by
  cases l with
  | identifier name =>
    match name, hw with
    | c :: u, hw =>
      obtain ⟨hc, hu⟩ := Bool.and_eq_true_iff.mp hw
      refine ⟨c, u, rfl, isSpace_of_isIdentifierStart hc, ?_⟩
      exact take_identifier hc (List.all_eq_true.mp hu) ht
  | quotedIdentifier name =>
    refine ⟨_, name.flatMap CodePoint.escaped ++ [.scalar '\x22'], rfl, by decide, ?_⟩
    rw [List.append_assoc, List.singleton_append,
      take_quotedIdentifier (Text.spelling_escaped name), List.length_append]
    rfl
  | rawString s =>
    refine ⟨_, rawBody s ++ [.scalar '\x27'], rfl, by decide, ?_⟩
    rw [List.append_assoc, List.singleton_append, take_rawString, List.length_append]
    rfl
  | literal v =>
    refine ⟨_, literalBody (v.write none) ++ [literalMark], rfl, by decide, ?_⟩
    rw [List.append_assoc, List.singleton_append, take_literal (Json.read_write none hw.1 hw.2),
      List.length_append]
    rfl
  | number i =>
    obtain ⟨c, u, hc, htake⟩ := take_number hw ht
    have hn : c.inNumeral = true := by
      have h := NumeralText.ofInt i
      rw [hc] at h
      exact h c List.mem_cons_self
    exact ⟨c, u, hc, (CodePoint.visible_of_inNumeral hn).isSpace, htake⟩
  | symbol s =>
    obtain ⟨c, u, hs, hb, htake⟩ := take_symbol s
    have hsym := symbol?_text s ht
    rw [hs] at hsym
    exact ⟨c, u, hs, hb, htake _ hsym⟩

end Lexeme

/-! ### How they are read -/

theorem Token.scan_skip (offset : Nat) (u t : Text) :
    scan offset u.length (u ++ t) = scan (offset + u.length) 0 t := by
  induction u generalizing offset with
  | nil => rfl
  | cons c u ih =>
    rw [List.length_cons, List.cons_append, scan, ih, Nat.add_assoc, Nat.add_comm 1]

theorem Token.scan_text {ls : List Lexeme} (h : Legible ls) (offset : Nat) :
    ∃ ts, scan offset 0 (ls.flatMap Lexeme.text) = .ok ts ∧
      lexemes ts = ls.map Lexeme.unsigned := by
  induction ls generalizing offset with
  | nil => exact ⟨[], rfl, rfl⟩
  | cons l ls ih =>
    obtain ⟨hw, hend, hls⟩ := h
    obtain ⟨c, u, hc, hs, htake⟩ := l.take_text hw hend
    obtain ⟨ts, hts, hlex⟩ := ih hls (offset + 1 + u.length)
    refine ⟨⟨l.unsigned, offset⟩ :: ts, ?_, ?_⟩
    · rw [List.flatMap_cons, hc, List.cons_append, scan,
        if_neg (by rw [hs]; exact Bool.false_ne_true), htake]
      dsimp only
      rw [scan_skip, hts]
      rfl
    · rw [lexemes_cons, hlex, List.map_cons]

/-- The texts of some lexemes, put together, spell them. -/
theorem spells_text {ls : List Lexeme} (h : Legible ls) :
    Spells (ls.flatMap Lexeme.text) (ls.map Lexeme.unsigned) := by
  obtain ⟨ts, hts, hlex⟩ := Token.scan_text h 0
  refine ⟨⟨ts, (ls.flatMap Lexeme.text).length⟩, ?_, hlex⟩
  rw [Tokens.read, Tokens.ofSource, hts]
  rfl

/-! ### Lexemes that stand anywhere -/

/-- Lexemes that can be written before any others. -/
def FreeStanding (ls : List Lexeme) : Prop :=
  ∀ rest, Legible rest → Legible (ls ++ rest)

theorem FreeStanding.legible {ls : List Lexeme} (h : FreeStanding ls) : Legible ls := by
  rw [← List.append_nil ls]
  exact h [] trivial

namespace FreeStanding
variable {ls ts : List Lexeme}

theorem nil : FreeStanding [] :=
  fun _ h => h

theorem append (hl : FreeStanding ls) (ht : FreeStanding ts) : FreeStanding (ls ++ ts) := by
  intro rest h
  rw [List.append_assoc]
  exact hl _ (ht rest h)

theorem single {l : Lexeme} (hw : l.Writable) (hl : ∀ c, l.goesOn c = false) :
    FreeStanding [l] :=
  fun _ h => ⟨hw, fun c _ => hl c, h⟩

theorem symbol {s : Symbol} (hs : s.growth = []) : FreeStanding [.symbol s] := by
  refine single trivial fun c => ?_
  rw [Lexeme.goesOn, hs, List.any_nil]

theorem quotedIdentifier (name : Text) : FreeStanding [.quotedIdentifier name] :=
  single trivial fun _ => rfl

/-- A lexeme can be written where what follows ends it. -/
theorem cons {l t : Lexeme} (hw : l.Writable) (hl : l.EndsBefore t.text) (ht : t.text ≠ [])
    (hs : FreeStanding (t :: ts)) : FreeStanding (l :: t :: ts) := by
  intro rest h
  refine ⟨hw, ?_, hs rest h⟩
  obtain ⟨c, u, hc⟩ := List.exists_cons_of_ne_nil ht
  change l.EndsBefore ((t :: (ts ++ rest)).flatMap Lexeme.text)
  rw [hc] at hl
  rw [List.flatMap_cons, hc]
  exact hl

theorem delimited {s s' : Symbol} (hs : s.growth = []) (hs' : s'.growth = [])
    (h : FreeStanding ls) : FreeStanding (.symbol s :: (ls ++ [.symbol s'])) :=
  (symbol hs).append (h.append (symbol hs'))

end FreeStanding

end JsonQuery
