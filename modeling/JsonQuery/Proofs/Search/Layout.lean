/-
Layout does not matter.

With blanks inserted between its tokens a source says the same, is parsed to the same tree up to
offsets or refused for the same reason at the same token, and finds the same in every document.

* `compile_alike` — sources that say the same compile and search alike;
* `widen_search` — inserting blanks changes nothing but places.
-/
import JsonQuery.Proofs.Eval.Agree
import JsonQuery.Proofs.Grammar.Move
import JsonQuery.Proofs.Search.Alike
import JsonQuery.Proofs.Token.Layout

namespace JsonQuery

open Grammar

/-- Sources that say the same give queries that find the same, or fail to compile for the same
reason. -/
theorem compile_alike {s s' : Text} {tokens tokens' : Tokens}
    (h : Tokens.ofSource s = .ok tokens) (h' : Tokens.ofSource s' = .ok tokens')
    (hlex : lexemes tokens'.items = lexemes tokens.items) (limit : Int) :
    match Query.compile s none limit, Query.compile s' none limit with
    | .ok q, .ok q' => ∀ v shared, SameEnd (q.search v shared) (q'.search v shared)
    | .error e, .error e' => e.bare = e'.bare
    | _, _ => False := by
  have halike := Tokens.ofTokens_alike hlex
  rw [Query.compile, Query.compile, parse_eq_ofTokens h, parse_eq_ofTokens h']
  cases he : Expr.ofTokens tokens with
  | ok e =>
    cases he' : Expr.ofTokens tokens' with
    | ok e' =>
      rw [he, he'] at halike
      simp only [mapError_ok, bind, Except.bind]
      by_cases hl : 1 ≤ limit
      · rw [Query.ofExpr, Query.ofExpr, dif_pos hl, dif_pos hl]
        intro v shared
        let q : Query := ⟨s, some e, none, limit, hl⟩
        let q' : Query := ⟨s', some e', none, limit, hl⟩
        have hq : q.expr = some e := rfl
        have hq' : q'.expr = some e' := rfl
        exact search_sameEnd hq hq' halike rfl rfl (Registry.standard_steadyUpTo _) rfl
          shared
      · rw [Query.ofExpr, Query.ofExpr, dif_neg hl, dif_neg hl]
    | error err' =>
      rw [he, he'] at halike
      exact halike.elim
  | error err =>
    cases he' : Expr.ofTokens tokens' with
    | ok e' =>
      rw [he, he'] at halike
      exact halike.elim
    | error err' =>
      rw [he, he'] at halike
      obtain ⟨hp, hf, hc, -⟩ := halike
      simp only [mapError_error, bind, Except.bind]
      show CompileError.source (.query ⟨.parse err.problem err.found err.context, 0, none⟩) = _
      rw [hp, hf, hc]
      rfl

/-- Blanks between the tokens of a source do not matter: it says the same with them, has the same
tree up to offsets or is refused for the same reason at the same token, and its searches with the
standard functions give the same value or fail with the same class and message. -/
theorem widen_search {source : Text} {tokens : Tokens} {gaps : Nat → Text}
    (ht : Tokens.ofSource source = .ok tokens) (hb : ∀ p, (gaps p).Blank)
    (hin : ∀ x ∈ tokens.items, ∀ p, x.Contains source p → gaps p = []) :
    ∃ tokens', Tokens.ofSource (source.widen gaps 0) = .ok tokens' ∧
      lexemes tokens'.items = lexemes tokens.items ∧
      (match Expr.ofTokens tokens, Expr.ofTokens tokens' with
        | .ok e, .ok e' => e.bare = e'.bare
        | .error err, .error err' => err.problem = err'.problem ∧ err.found = err'.found ∧
            err.context = err'.context ∧ ∃ i ≤ tokens.items.length,
              err.offset = tokens.place i ∧ err'.offset = tokens'.place i
        | _, _ => False) ∧
      ∀ limit, match Query.compile source none limit,
          Query.compile (source.widen gaps 0) none limit with
        | .ok q, .ok q' => ∀ v shared, SameEnd (q.search v shared) (q'.search v shared)
        | .error e, .error e' => e.bare = e'.bare
        | _, _ => False := by
  obtain ⟨tokens', ht', hlex⟩ := Tokens.ofSource_widen ht hb hin
  exact ⟨tokens', ht', hlex, Tokens.ofTokens_alike hlex, compile_alike ht ht' hlex⟩

/-- Blanks wherever they may stand in `a[?b]||c`. -/
theorem widen_search_filter :
    let source : Text := "a[?b]||c"
    let gaps : Nat → Text := fun p => if p = 2 ∨ p = 6 then [] else "\t "
    let tokens : Tokens := ⟨[⟨.identifier "a", 0⟩, ⟨.symbol .filter, 1⟩, ⟨.identifier "b", 3⟩,
      ⟨.symbol .rightBracket, 4⟩, ⟨.symbol .or, 5⟩, ⟨.identifier "c", 7⟩], 8⟩
    Tokens.ofSource source = .ok tokens ∧ (∀ p, (gaps p).Blank) ∧
      (∀ x ∈ tokens.items, ∀ p, x.Contains source p → gaps p = []) ∧
      ∃ tokens', Tokens.ofSource "\t a\t [?\t b\t ]\t ||\t c\t " = .ok tokens' ∧
        lexemes tokens'.items = lexemes tokens.items := by
  intro source gaps tokens
  have ht : Tokens.ofSource source = .ok tokens := rfl
  have hb : ∀ p, (gaps p).Blank := by
    intro p
    by_cases hp : p = 2 ∨ p = 6
    · simp [gaps, hp, Text.Blank]
    · simp [gaps, hp, Text.Blank, Text.ofString, Text.ofChars, Reader.isSpace]
  have hin : ∀ x ∈ tokens.items, ∀ p, x.Contains source p → gaps p = [] := by
    have hmore : tokens.items.map (Token.more source) = [0, 1, 0, 0, 1, 0] := rfl
    simp only [tokens, List.map_cons, List.map_nil, List.cons.injEq] at hmore
    intro x hx p h
    refine if_pos ?_
    simp only [tokens, List.mem_cons, List.not_mem_nil, or_false] at hx
    rcases hx with rfl | rfl | rfl | rfl | rfl | rfl <;>
      · simp only [Token.Contains, hmore] at h
        omega
  obtain ⟨tokens', ht', hlex, -⟩ := widen_search ht hb hin
  exact ⟨ht, hb, hin, tokens', ht', hlex⟩

end JsonQuery
