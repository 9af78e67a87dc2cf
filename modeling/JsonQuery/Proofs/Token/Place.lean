/-
Where the tokens of a source stand, and where there are none.

Tokens start one after the other inside the source.  An error of the scanner is told at a code
point of the source that suits its kind, except for an integer with too many digits, which is a
long run of digits in the source.

* `Token.scan_sorted`, `Token.scan_offset` — the offsets of tokens grow, and lie in the text;
* `ScanError.In` — an error of the scanner, seen in the text that it arose in;
* `Tokens.ofSource_error` — the errors of the scanner are in the source.
-/
import JsonQuery.Proofs.Grammar.Sound

namespace JsonQuery

open Grammar (map_eq_ok bind_ok_eq_error map_eq_error mapError_eq_error)

/-! ### Tokens -/

/-- Tokens start inside the text that they are taken from. -/
theorem Token.scan_offset {offset skip : Nat} {t : Text} {ts : List Token}
    (h : Token.scan offset skip t = .ok ts) {x : Token} (hx : x ∈ ts) :
    offset ≤ x.offset ∧ x.offset < offset + t.length := by
  induction t generalizing offset skip ts with
  | nil =>
    cases skip <;> cases h <;> cases hx
  | cons c t ih =>
    rw [List.length_cons]
    cases skip with
    | succ skip =>
      have := ih h hx
      omega
    | zero =>
      rw [Token.scan] at h
      split at h
      · have := ih h hx
        omega
      · split at h
        · obtain ⟨ts', hts, rfl⟩ := map_eq_ok.mp h
          rcases List.mem_cons.mp hx with rfl | hx
          · simp
          · have := ih hts hx
            omega
        · cases h

/-- Tokens start one after the other. -/
theorem Token.scan_sorted {offset skip : Nat} {t : Text} {ts : List Token}
    (h : Token.scan offset skip t = .ok ts) : ts.Pairwise (·.offset < ·.offset) := by
  induction t generalizing offset skip ts with
  | nil => cases skip <;> cases h <;> exact .nil
  | cons c t ih =>
    cases skip with
    | succ skip => exact ih h
    | zero =>
      rw [Token.scan] at h
      split at h
      · exact ih h
      · split at h
        · obtain ⟨ts', hts, rfl⟩ := map_eq_ok.mp h
          exact .cons (fun x hx => (Token.scan_offset hts hx).1) (ih hts)
        · cases h

/-! ### Errors -/

/-- The code points that a problem may be told at. -/
def LexProblem.Marks : LexProblem → CodePoint → Prop
  | .unterminated, c => c = .scalar '\x22' ∨ c = .scalar '\x27' ∨ c = Lexeme.literalMark
  | .invalidEscape, c => c = .scalar '\\'
  | .invalidCharacter, _ => True
  | .invalidLiteral, c => c = Lexeme.literalMark

/-- An error is told at a code point of a text that starts at an offset. -/
def LexError.In (e : LexError) (offset : Nat) (t : Text) : Prop :=
  ∃ u c v, t = u ++ c :: v ∧ e.offset = offset + u.length ∧ e.problem.Marks c

/-- A text holds more digits in a row than an integer may have. -/
def Text.HasLongRun (t : Text) : Prop :=
  ∃ u digits v, t = u ++ digits ++ v ∧ (∀ c ∈ digits, c.isDigit = true) ∧
    Text.intDigitLimit < digits.length

/-- An error of the scanner is one of a text that starts at an offset. -/
def ScanError.In : ScanError → Nat → Text → Prop
  | .lex e, offset, t => e.In offset t
  | .tooManyDigits _, _, t => t.HasLongRun

section
variable {e : LexError} {offset : Nat} {c : CodePoint} {t : Text}

theorem LexError.In.head (h : e.offset = offset) (hm : e.problem.Marks c) : e.In offset (c :: t) :=
  ⟨[], c, t, rfl, h, hm⟩

theorem LexError.In.cons (h : e.In (offset + 1) t) : e.In offset (c :: t) := by
  obtain ⟨u, d, v, rfl, ho, hm⟩ := h
  refine ⟨c :: u, d, v, rfl, ?_, hm⟩
  rw [ho, List.length_cons]
  omega

theorem LexError.In.append (h : e.In offset t) (v : Text) : e.In offset (t ++ v) := by
  obtain ⟨u, d, w, rfl, ho, hm⟩ := h
  exact ⟨u, d, w ++ v, by simp, ho, hm⟩

theorem ScanError.In.cons {e : ScanError} (h : e.In (offset + 1) t) : e.In offset (c :: t) := by
  cases e with
  | lex e => exact LexError.In.cons h
  | tooManyDigits =>
    obtain ⟨u, digits, v, rfl, hd⟩ := h
    exact ⟨c :: u, digits, v, rfl, hd⟩

theorem ScanError.In.shift {e : ScanError} (h : e.In 0 t) : (e.shift offset).In offset t := by
  cases e with
  | lex e =>
    obtain ⟨u, d, v, rfl, ho, hm⟩ := h
    refine ⟨u, d, v, rfl, ?_, hm⟩
    show offset + e.offset = _
    rw [ho, Nat.zero_add]
  | tooManyDigits => exact h

end

namespace Lexeme

/-- What stands before a delimiter is a part of the text. -/
theorem delimited_eq_some {delimiter : CodePoint} {t body : Text}
    (h : delimited delimiter t = some body) : ∃ rest, t = body ++ delimiter :: rest := by
  induction t using delimited.induct delimiter generalizing body with
  | case1 => cases h
  | case2 => cases h
  | case3 c t ih =>
    rw [delimited] at h
    obtain ⟨body', hb, rfl⟩ := Option.map_eq_some_iff.mp h
    obtain ⟨rest, rfl⟩ := ih hb
    exact ⟨rest, rfl⟩
  | case4 t h1 h2 =>
    rw [delimited, if_pos rfl] at h
    · cases h
      exact ⟨t, rfl⟩
    · exact h1
    · exact h2
  | case5 c t h1 h2 hc ih =>
    rw [delimited, if_neg hc] at h
    · obtain ⟨body', hb, rfl⟩ := Option.map_eq_some_iff.mp h
      obtain ⟨rest, rfl⟩ := ih hb
      exact ⟨rest, rfl⟩
    · exact h1
    · exact h2

/-- A wrong escape is told at its backslash. -/
theorem unescape_error {offset skip : Nat} {t : Text} {e : LexError}
    (h : unescape offset skip t = .error e) : e.In offset t := by
  induction t generalizing offset skip with
  | nil => cases skip <;> cases h
  | cons c t ih =>
    cases skip with
    | succ skip => exact .cons (ih h)
    | zero =>
      unfold unescape at h
      split at h
      · next hc =>
        split at h
        · split at h
          · exact .cons (ih (map_eq_error.mp h))
          · cases h
            exact .head rfl hc
        · split at h
          · exact .cons (ih (map_eq_error.mp h))
          · cases h
            exact .head rfl hc
        · cases h
          exact .head rfl hc
      · split at h
        · cases h
          exact .head rfl trivial
        · exact .cons (ih (map_eq_error.mp h))

theorem literalValue_error {body : Text} {e : LexError} (h : literalValue body = .error e) :
    e.problem = .invalidLiteral ∧ e.offset = 0 := by
  unfold literalValue at h
  cases hr : Json.read (literalText body).strip with
  | ok => rw [hr] at h; cases h
  | error r =>
    rw [hr] at h
    cases r <;> cases h <;> exact ⟨rfl, rfl⟩

/-- Only too many digits are no integer. -/
theorem ofDigits_error {negative : Bool} {digits : Text} {e : ScanError}
    (h : ofDigits negative digits = .error e) :
    Text.intDigitLimit < digits.length ∧ ∃ n, e = .tooManyDigits n := by
  unfold ofDigits at h
  split at h
  · next hl =>
    cases h
    exact ⟨hl, _, rfl⟩
  · cases h

/-- The digits at the start of a text are a long run if no integer has so many. -/
theorem ofDigits_takeWhile_error {negative : Bool} {t : Text} {e : ScanError}
    (h : ofDigits negative (t.takeWhile CodePoint.isDigit) = .error e) : t.HasLongRun ∧
      ∃ n, e = .tooManyDigits n := by
  obtain ⟨hl, he⟩ := ofDigits_error h
  refine ⟨⟨[], _, t.dropWhile CodePoint.isDigit, ?_, ?_, hl⟩, he⟩
  · rw [List.nil_append, List.takeWhile_append_dropWhile]
  · intro c hc
    exact List.all_eq_true.mp List.all_takeWhile c hc

/-- A token between delimiters is not closed, or something is wrong with its body. -/
theorem delimited_error {β : Type} {c : CodePoint} {t : Text} {e : ScanError}
    {f : Text → Except ScanError β} (hc : LexProblem.unterminated.Marks c)
    (h : (takeDelimited c t).mapError .lex >>= f = .error e)
    (hf : ∀ body v, t = body ++ v → f body = .error e → e.In 0 (c :: t)) : e.In 0 (c :: t) := by
  unfold takeDelimited at h
  cases hd : delimited c t with
  | none =>
    rw [hd] at h
    cases h
    exact LexError.In.head rfl hc
  | some body =>
    rw [hd] at h
    obtain ⟨rest, ht⟩ := delimited_eq_some hd
    exact hf body _ ht h

/-- Where no token starts, the error is told in what the token would be a part of. -/
theorem take_error {c : CodePoint} {t : Text} {e : ScanError} (h : take c t = .error e) :
    e.In 0 (c :: t) := by
  unfold take at h
  dsimp only at h
  -- An identifier, a number, a sign, three kinds between delimiters, or a symbol.
  split at h
  · cases h
  · split at h
    · next hc =>
      rw [bind_ok_eq_error, ← List.takeWhile_cons_of_pos hc] at h
      obtain ⟨hl, n, rfl⟩ := ofDigits_takeWhile_error h
      exact hl
    · split at h
      · split at h
        · cases h
          exact LexError.In.head rfl trivial
        · rw [bind_ok_eq_error] at h
          obtain ⟨hl, n, rfl⟩ := ofDigits_takeWhile_error h
          have hin : (ScanError.tooManyDigits n).In 1 t := hl
          exact hin.cons
      · split at h
        · next hc =>
          refine delimited_error (.inl hc) h fun body v ht h => ?_
          rw [bind_ok_eq_error] at h
          obtain ⟨e', he, rfl⟩ := mapError_eq_error.mp h
          subst ht
          exact LexError.In.cons ((unescape_error he).append v)
        · split at h
          · next hc => exact delimited_error (.inr (.inl hc)) h fun _ _ _ h => nomatch h
          · split at h
            · next hc =>
              refine delimited_error (.inr (.inr hc)) h fun body v ht h => ?_
              rw [bind_ok_eq_error] at h
              obtain ⟨e', he, rfl⟩ := mapError_eq_error.mp h
              obtain ⟨hp, ho⟩ := literalValue_error he
              refine LexError.In.head ho ?_
              rw [hp]
              exact hc
            · split at h
              · cases h
              · split at h <;> cases h <;> exact LexError.In.head rfl trivial

end Lexeme

theorem Token.scan_error {offset skip : Nat} {t : Text} {e : ScanError}
    (h : Token.scan offset skip t = .error e) : e.In offset t := by
  induction t generalizing offset skip with
  | nil => cases skip <;> cases h
  | cons c t ih =>
    cases skip with
    | succ skip => exact .cons (ih h)
    | zero =>
      rw [Token.scan] at h
      split at h
      · exact .cons (ih h)
      · split at h
        · exact .cons (ih (map_eq_error.mp h))
        · next he =>
          cases h
          exact (Lexeme.take_error he).shift

/-- The errors of the scanner are in the source. -/
theorem Tokens.ofSource_error {source : Text} {e : ScanError}
    (h : Tokens.ofSource source = .error e) : e.In 0 source :=
  Token.scan_error (map_eq_error.mp h)

end JsonQuery
