/-
Nothing that the tokens of a source say is lost.

Names, values and numbers stand in a tree in the order in which the tokens with them stand in the
source, each of them once.  Every production hands on what its parts say; so does the one that
makes a call of a name, and the one that reads a filter's predicate before its right side.

* `Grammar.reads_words` — an expression says what the lexemes say that it is read from;
* `parse_words` — so the walk over the tree of a source goes through the words of its tokens.
-/
import JsonQuery.Proofs.Expr.Walk
import JsonQuery.Proofs.Grammar.Source

namespace JsonQuery

/-- What a token says besides its kind; a symbol says nothing more. -/
def Lexeme.word? : Lexeme → Option Word
  | .identifier name => some (.name name)
  | .quotedIdentifier name => some (.name name)
  | .rawString text => some (.value (.str text))
  | .literal value => some (.value value)
  | .number i => some (.number i)
  | .symbol _ => none

namespace Grammar

open JsonQuery.Parser

/-- What some lexemes say, one after the other. -/
def wordsOf (ls : List Lexeme) : List Word :=
  ls.filterMap Lexeme.word?

section
variable (ls : List Lexeme)

@[simp] theorem wordsOf_number (i : Int) :
    wordsOf (.number i :: ls) = .number i :: wordsOf ls := rfl

@[simp] theorem wordsOf_symbol (s : Symbol) : wordsOf (.symbol s :: ls) = wordsOf ls := rfl

theorem wordsOf_key {t : Lexeme} {key : Text} (h : key? t = some key) :
    wordsOf (t :: ls) = .name key :: wordsOf ls := by
  cases t <;> cases h <;> rfl

end

/-! ### Indices and slices -/

theorem words_setSlicePart {i : Nat} {s : Slice} (v : Int) (hi : i ≤ 2)
    (h : ∀ j, i ≤ j → j ≤ 2 → slicePart s j = none) :
    (setSlicePart s v i).words = s.words ++ [.number v] := by
  obtain ⟨start, stop, step⟩ := s
  obtain rfl : step = none := h 2 hi (Nat.le_refl 2)
  match i with
  | 0 =>
    obtain rfl : start = none := h 0 (Nat.le_refl 0) (Nat.zero_le 2)
    obtain rfl : stop = none := h 1 (Nat.zero_le 1) (Nat.le_succ 1)
    rfl
  | 1 =>
    obtain rfl : stop = none := h 1 (Nat.le_refl 1) (Nat.le_succ 1)
    simp [setSlicePart, Slice.words]
  | 2 => simp [setSlicePart, Slice.words]

theorem slicePart_setSlicePart {i j : Nat} {s : Slice} {v : Int} (hij : i < j) (hj : j ≤ 2) :
    slicePart (setSlicePart s v i) j = slicePart s j := by
  match i, j with
  | 0, 1 | 0, 2 | 1, 2 => rfl
  | _, 0 | 1, 1 | _ + 2, 1 | _ + 2, 2 | _, _ + 3 => omega

/-- The parts of a slice stand in their order, for none is given after a later one. -/
theorem sliceParts_words {i : Nat} {s r : Slice} {ts rest : List Lexeme}
    (h : SliceParts i s ts r rest) (hi : i ≤ 2) (hs : ∀ j, i < j → j ≤ 2 → slicePart s j = none) :
    s.words ++ wordsOf ts = r.words ++ wordsOf rest := by
  induction h with
  | close => rfl
  | @colon i s ts r rest hne _ ih =>
    have hs' : ∀ j, i + 1 < j → j ≤ 2 → slicePart s j = none :=
      fun j hj => hs j (Nat.lt_of_succ_lt hj)
    rw [wordsOf_symbol]
    exact ih (by omega) hs'
  | @number i s v ts r rest hnone _ ih =>
    -- Neither this part nor a later one is there yet, so it is said last.
    have hlate : ∀ j, i ≤ j → j ≤ 2 → slicePart s j = none := by
      intro j hij hj
      rcases Nat.eq_or_lt_of_le hij with rfl | hlt
      · exact hnone
      · exact hs j hlt hj
    have hs' : ∀ j, i < j → j ≤ 2 → slicePart (setSlicePart s v i) j = none := by
      intro j hij hj
      rw [slicePart_setSlicePart hij hj]
      exact hs j hij hj
    rw [← ih hi hs', words_setSlicePart v hi hlate, wordsOf_number, List.append_assoc,
      List.singleton_append]

theorem bracket_words {ts rest : List Lexeme} {a : Atom} (h : Bracket ts a rest) :
    wordsOf ts = a.words ++ wordsOf rest := by
  cases h with
  | index => rfl
  | slice _ hp =>
    have hnone : ∀ j, 0 < j → j ≤ 2 → slicePart ⟨none, none, none⟩ j = none := by
      rintro (_ | _ | j) _ _ <;> rfl
    exact sliceParts_words hp (Nat.zero_le 2) hnone

theorem words_indexed (left : Expr) (a : Atom) :
    (indexed left a).words = left.words ++ a.words := by
  unfold indexed
  split
  · next h =>
    have hl : left.words = [] := by
      match left, h with
      | .atom .identity _, _ => rfl
    rw [hl, Expr.words_atom, List.nil_append]
  · rw [Expr.words_binary, Expr.words_atom]

/-! ### Productions -/

section
variable {S : Reading}
  (hS : ∀ ⦃least ts e rest⦄, S least ts e rest → wordsOf ts = e.words ++ wordsOf rest)
include hS

theorem elements_words {ts rest : List Lexeme} {es : List Expr} (h : Elements S ts es rest) :
    wordsOf ts = Expr.wordsList es ++ wordsOf rest := by
  induction h with
  | last he => simp [hS he]
  | more he _ ih => simp [hS he, ih]

theorem pairs_words {ts rest : List Lexeme} {ps : List (Text × Expr)} (h : Pairs S ts ps rest) :
    wordsOf ts = Expr.wordsPairs ps ++ wordsOf rest := by
  induction h with
  | last hk he => simp [wordsOf_key _ hk, hS he]
  | more hk he _ ih => simp [wordsOf_key _ hk, hS he, ih]

theorem arguments_words {ts rest : List Lexeme} {es : List Expr} (h : Arguments S ts es rest) :
    wordsOf ts = Expr.wordsList es ++ wordsOf rest := by
  induction h with
  | none => rfl
  | last he => simp [hS he]
  | more he _ _ ih => simp [hS he, ih]

theorem afterDot_words {least : Nat} {ts rest : List Lexeme} {e : Expr}
    (h : AfterDot S least ts e rest) : wordsOf ts = e.words ++ wordsOf rest := by
  cases h with
  | expr _ he => exact hS he
  | list h => simp [elements_words hS h]
  | hash h => simp [pairs_words hS h]

theorem projected_words {least : Nat} {ts rest : List Lexeme} {e : Expr}
    (h : Projected S least ts e rest) : wordsOf ts = e.words ++ wordsOf rest := by
  cases h with
  | stop => rfl
  | bracket he => exact hS he
  | filter he => exact hS he
  | dot h =>
    rw [wordsOf_symbol]
    exact afterDot_words hS h

theorem bracketed_words {left : Expr} {ts rest : List Lexeme} {e : Expr}
    (h : Bracketed S left ts e rest) :
    left.words ++ wordsOf ts = e.words ++ wordsOf rest := by
  cases h with
  | index h => simp [bracket_words h, words_indexed]
  | slice h hp => simp [bracket_words h, projected_words hS hp, words_indexed]

/-- The predicate of a filter is read before its right side, and walked through before it. -/
theorem filtered_words {left : Expr} {ts rest : List Lexeme} {e : Expr}
    (h : Filtered S left ts e rest) :
    left.words ++ wordsOf ts = e.words ++ wordsOf rest := by
  cases h with
  | intro hp hr => simp [hS hp, projected_words hS hr]

theorem operand_words {ts rest : List Lexeme} {e : Expr} (h : Operand S ts e rest) :
    wordsOf ts = e.words ++ wordsOf rest := by
  have implicit_words : implicit.words = [] := rfl
  cases h with
  | identifier | quotedIdentifier | rawString | literal | current => rfl
  | values hp | flatten hp | items hp => simp [projected_words hS hp, implicit_words]
  | filter h => simpa [implicit_words] using filtered_words hS h
  | not he | reference he => simp [hS he]
  | group he => simp [hS he]
  | hash h => simp [pairs_words hS h]
  | bracket _ h => simpa [implicit_words] using bracketed_words hS h
  | list _ _ h => simp [elements_words hS h]

theorem extension_words {left : Expr} {ts rest : List Lexeme} {e : Expr}
    (h : Extension S left ts e rest) :
    left.words ++ wordsOf ts = e.words ++ wordsOf rest := by
  cases h with
  | values hp | items hp | flatten hp => simp [projected_words hS hp]
  | step _ h => simp [afterDot_words hS h]
  | bracket _ h =>
    rw [wordsOf_symbol]
    exact bracketed_words hS h
  | filter h =>
    rw [wordsOf_symbol]
    exact filtered_words hS h
  | infixed _ he | compare _ he => simp [hS he]
  | call h =>
    -- The name of the call is the one that the field before it said.
    simp [arguments_words hS h, Atom.words]

theorem operators_words {least : Nat} {left : Expr} {ts rest : List Lexeme} {e : Expr}
    (h : Operators S least left ts e rest) :
    left.words ++ wordsOf ts = e.words ++ wordsOf rest := by
  induction h with
  | stop => rfl
  | more _ he _ ih => exact (extension_words hS he).trans ih

end

/-- An expression says what the lexemes say that it is read from. -/
theorem reads_words {n least : Nat} {ts rest : List Lexeme} {e : Expr}
    (h : Reads n least ts e rest) : wordsOf ts = e.words ++ wordsOf rest := by
  induction n generalizing least ts e rest with
  | zero => exact h.elim
  | succ n ih =>
    obtain ⟨left, mid, ho, hl⟩ := h
    have hS : ∀ ⦃least ts e rest⦄, Reads n least ts e rest →
        wordsOf ts = e.words ++ wordsOf rest := fun _ _ _ _ => ih
    exact (operand_words hS ho).trans (operators_words hS hl)

end Grammar

open Grammar

/-- The walk over the tree of a source, with each key of a hash before its value, goes through the
names, values and numbers of its tokens in their order, and through nothing else. -/
theorem parse_words {source : Text} {e : Expr} (h : Expr.parse source = .ok e) :
    e.visits.filterMap Visit.node? = e.walk ∧
      ∃ tokens, Tokens.ofSource source = .ok tokens ∧
        e.visits.flatMap Visit.words = tokens.items.filterMap fun t => t.lexeme.word? := by
  obtain ⟨tokens, ht, he⟩ := parses_iff.mpr h
  have hr := (sound_expression _ _ _ (Nat.le_refl _) he).1
  refine ⟨e.filterMap_visits, tokens, mapError_eq_ok.mp ht, ?_⟩
  calc e.words = e.bare.words := e.words_bare.symm
    _ = wordsOf (lexemes tokens.items) := by
      rw [reads_words hr]
      exact (List.append_nil _).symm
    _ = tokens.items.filterMap fun t => t.lexeme.word? := by
      rw [wordsOf, lexemes, List.filterMap_map]
      rfl

theorem parse_words_filtered_call :
    let source : Text := "a[?b == 'c'].\x7bk: f(d, @)[1:]\x7d"
    let words : List Word := [.name "a", .name "b", .value (.str "c"), .name "k", .name "f",
      .name "d", .number 1]
    ∃ e tokens, Expr.parse source = .ok e ∧ Tokens.ofSource source = .ok tokens ∧
      (tokens.items.filterMap fun t => t.lexeme.word?) = words ∧
      e.visits.flatMap Visit.words = words := by
  intro source words
  obtain ⟨e, he⟩ : ∃ e, Expr.parse source = .ok e := ⟨_, rfl⟩
  obtain ⟨-, tokens, ht, hw⟩ := parse_words he
  have hs : Tokens.ofSource source = .ok _ := rfl
  have hl : (tokens.items.filterMap fun t => t.lexeme.word?) = words := by
    rw [hs] at ht
    cases ht
    rfl
  exact ⟨e, tokens, he, ht, hl, hw.trans hl⟩

end JsonQuery
