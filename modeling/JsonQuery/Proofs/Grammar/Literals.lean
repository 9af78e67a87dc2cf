/-
The names and literals of a source.

A name without quotes is an identifier.  A literal is read from JSON text, so no object in it has a
key twice; and the literals of a tree are those of its source.

* `Tokens.ofSource_wellMade` — the tokens of a source are well made in this sense;
* `parse_distinct` — the literals of its tree have distinct keys.
-/
import JsonQuery.Proofs.Grammar.Words
import JsonQuery.Proofs.Json.Distinct
import JsonQuery.Registry

namespace JsonQuery

open Grammar

/-! ### Tokens -/

/-- A name without quotes is an identifier, and a literal has no object with a key twice. -/
def Lexeme.WellMade : Lexeme → Prop
  | .identifier name => name.isIdentifier = true
  | .literal value => value.DistinctKeys
  | _ => True

theorem Lexeme.ofDigits_wellMade {negative : Bool} {digits : Text} {l : Lexeme}
    (h : ofDigits negative digits = .ok l) : l.WellMade := by
  unfold ofDigits at h
  split at h
  · cases h
  · cases h
    trivial

theorem Lexeme.literalValue_distinct {body : Text} {j : Json} (h : literalValue body = .ok j) :
    j.DistinctKeys :=
  Json.distinctKeys_of_read (mapError_eq_ok.mp h)

theorem Lexeme.take_wellMade {c : CodePoint} {t : Text} {l : Lexeme} {used : Nat}
    (h : take c t = .ok (l, used)) : l.WellMade := by
  unfold take at h
  dsimp only at h
  -- An identifier, a number, a sign, three kinds between delimiters, or a symbol.
  split at h
  · next hc =>
    cases h
    exact Bool.and_eq_true_iff.mpr ⟨hc, List.all_takeWhile⟩
  · split at h
    · obtain ⟨l', hl, h⟩ := bind_eq_ok.mp h
      cases h
      exact ofDigits_wellMade hl
    · split at h
      · split at h
        · cases h
        · obtain ⟨l', hl, h⟩ := bind_eq_ok.mp h
          cases h
          exact ofDigits_wellMade hl
      · split at h
        · obtain ⟨body, -, h⟩ := bind_eq_ok.mp h
          obtain ⟨name, -, h⟩ := bind_eq_ok.mp h
          cases h
          trivial
        · split at h
          · obtain ⟨body, -, h⟩ := bind_eq_ok.mp h
            cases h
            trivial
          · split at h
            · obtain ⟨body, -, h⟩ := bind_eq_ok.mp h
              obtain ⟨j, hj, h⟩ := bind_eq_ok.mp h
              cases h
              exact literalValue_distinct (mapError_eq_ok.mp hj)
            · split at h
              · cases h
                trivial
              · split at h <;> cases h

theorem Token.scan_wellMade {offset skip : Nat} {t : Text} {ts : List Token}
    (h : Token.scan offset skip t = .ok ts) : ∀ x ∈ ts, x.lexeme.WellMade := by
  induction t generalizing offset skip ts with
  | nil =>
    cases skip <;> cases h <;> nofun
  | cons c t ih =>
    cases skip with
    | succ skip => exact ih h
    | zero =>
      rw [Token.scan] at h
      split at h
      · exact ih h
      · split at h
        · next l used hl =>
          obtain ⟨xs, hxs, rfl⟩ := map_eq_ok.mp h
          exact List.forall_mem_cons.mpr ⟨Lexeme.take_wellMade hl, ih hxs⟩
        · cases h

/-- The tokens of a source are well made. -/
theorem Tokens.ofSource_wellMade {source : Text} {tokens : Tokens}
    (h : Tokens.ofSource source = .ok tokens) : ∀ x ∈ tokens.items, x.lexeme.WellMade := by
  obtain ⟨ts, hts, rfl⟩ := map_eq_ok.mp h
  exact Token.scan_wellMade hts

/-! ### Literals of trees -/

namespace Expr

/-- No object in a literal of a tree has a key twice. -/
def DistinctLiterals (e : Expr) : Prop :=
  ∀ ⦃j o⦄, .atom (.literal j) o ∈ e.walk → j.DistinctKeys

/-- A tree says what its literals are. -/
theorem mem_words_of_literal {e : Expr} {j : Json} {o : Nat}
    (h : .atom (.literal j) o ∈ e.walk) : Word.value j ∈ e.words := by
  rw [← e.filterMap_visits] at h
  obtain ⟨visit, hv, hn⟩ := List.mem_filterMap.mp h
  cases visit with
  | key => cases hn
  | node n =>
    cases hn
    exact List.mem_flatMap.mpr ⟨_, hv, List.mem_singleton_self _⟩

end Expr

/-- The literals of the tree of a source have distinct keys. -/
theorem parse_distinct {source : Text} {e : Expr} (h : Expr.parse source = .ok e) :
    e.DistinctLiterals := by
  intro j o hj
  obtain ⟨tokens, ht, he⟩ := parses_iff.mpr h
  have hwords := reads_words (sound_expression _ _ _ (Nat.le_refl _) he).1
  have hmem : Word.value j ∈ wordsOf (lexemes tokens.items) := by
    rw [hwords, e.words_bare]
    exact List.mem_append_left _ (Expr.mem_words_of_literal hj)
  obtain ⟨l, hl, hword⟩ := List.mem_filterMap.mp hmem
  obtain ⟨x, hx, rfl⟩ := List.mem_map.mp hl
  have hmade := Tokens.ofSource_wellMade (mapError_eq_ok.mp ht) x hx
  cases hlex : x.lexeme with
  | literal v =>
    rw [hlex] at hword hmade
    cases hword
    exact hmade
  | rawString t =>
    rw [hlex] at hword
    cases hword
    trivial
  | identifier | quotedIdentifier | number | symbol =>
    rw [hlex] at hword
    cases hword

end JsonQuery
