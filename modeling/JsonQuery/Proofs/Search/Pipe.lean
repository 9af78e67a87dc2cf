/-
A pipe in the text is one search after the other.

Two sources with a pipe between them search as the second one does in what the first one finds.
The pipe ends whatever stands open at the end of the first source, and the pipes of the second one
come after it, though the tree associates them to the left.

* `reads_pipe` — how two piped sources are read;
* `pipe_search` — searching with two piped sources is searching with one after the other.
-/
import JsonQuery.Proofs.Eval.Pipe
import JsonQuery.Proofs.Eval.Agree
import JsonQuery.Proofs.Search.Alike
import JsonQuery.Proofs.Token.Layout

namespace JsonQuery

open Grammar

/-- The grammar reads the tree of a source from its tokens. -/
theorem reads_of_parse {source : Text} {e : Expr} (h : Expr.parse source = .ok e) :
    ∃ tokens, Tokens.ofSource source = .ok tokens ∧
      Reads nestingLimit 0 (lexemes tokens.items) e.bare [] := by
  obtain ⟨tokens, ht, he⟩ := parses_iff.mpr h
  exact ⟨tokens, mapError_eq_ok.mp ht, (sound_expression _ _ _ (Nat.le_refl _) he).1⟩

/-- Two piped sources are read as the tree of the first with the parts of the second piped after it:
one level deeper than they are, so at the usual depth if the second one leaves a level. -/
theorem reads_pipe {s s' : Text} {e₁ e₂ : Expr} {tokens : Tokens} (h₁ : Expr.parse s = .ok e₁)
    (h₂ : Expr.parse s' = .ok e₂) (ht : Tokens.ofSource s = .ok tokens)
    (hc : Covered (lexemes tokens.items)) :
    ∃ all b es, Tokens.ofSource (s ++ " | " ++ s') = .ok all ∧ e₂.bare = piped b es ∧
      Reads (nestingLimit + 1) 0 (lexemes all.items) (piped e₁.bare (b :: es)) [] ∧
      ((∃ e, Parses (nestingLimit - 1) s' e) →
        ∃ e, Reads nestingLimit 0 (lexemes all.items) e []) := by
  have hr₁ : Reads nestingLimit 0 (lexemes tokens.items) e₁.bare [] := by
    obtain ⟨tokens₁, ht₁, hr⟩ := reads_of_parse h₁
    rw [ht] at ht₁
    cases ht₁
    exact hr
  obtain ⟨tokens', ht', hr₂⟩ := reads_of_parse h₂
  obtain ⟨all, hall, hlex⟩ := Tokens.ofSource_pipe ht ht'
  obtain ⟨b, es, hb, hread⟩ := reads_piped (reads_succ hr₁) hc hr₂
  rw [← hlex] at hread
  refine ⟨all, b, es, hall, hb, hread, ?_⟩
  rintro ⟨e, he⟩
  have hspells : Spells s' (lexemes tokens'.items) := ⟨tokens', mapError_eq_ok.mpr ht', rfl⟩
  have hlow := hspells.parses_iff.mp ⟨e, he, rfl⟩
  obtain ⟨_, _, -, hfits⟩ := reads_piped hr₁ hc hlow
  rw [← hlex] at hfits
  exact ⟨_, hfits⟩

/-- A pipe between two sources is one search after the other.  If both compile and every `&` of the
first stands inside brackets, then the piped source finds what the second finds in what the first
finds, or fails with the same class and message, unless a search reaches the limit.  It compiles
unless the second source is nested as deeply as sources may be, for it stands one level deeper. -/
theorem pipe_search {s s' : Text} {limit : Int} {q q' : Query} {tokens : Tokens}
    (hq : Query.compile s none limit = .ok q) (hq' : Query.compile s' none limit = .ok q')
    (ht : Tokens.ofSource s = .ok tokens) (hc : Covered (lexemes tokens.items)) :
    match Query.compile (s ++ " | " ++ s') none limit with
    | .ok p => ∀ v shared, ¬ ReachesLimit (q.search v shared >>= (q'.search · shared)) →
        ¬ ReachesLimit (p.search v shared) →
        SameEnd (q.search v shared >>= (q'.search · shared)) (p.search v shared)
    | .error (.source (.query err)) =>
        (∃ found context, err.cause = .parse .tooDeep found context) ∧
          ¬ ∃ e, Parses (nestingLimit - 1) s' e
    | .error _ => False := by
  obtain ⟨e₁, he₁, hl, rfl⟩ := Query.compile_eq_ok.mp hq
  obtain ⟨e₂, he₂, -, rfl⟩ := Query.compile_eq_ok.mp hq'
  obtain ⟨all, b, es, hall, hb, hread, hshallow⟩ := reads_pipe he₁ he₂ ht hc
  cases ho : Expr.ofTokens all with
  | ok e =>
    have hp : Expr.parse (s ++ " | " ++ s') = .ok e := by
      rw [parse_eq_ofTokens hall, ho]
      rfl
    rw [Query.compile_eq_ok.mpr ⟨e, hp, hl, rfl⟩]
    intro v shared h₁ h₂
    have he : e.bare = piped e₁.bare (b :: es) := by
      have hr := (sound_expression _ _ _ (Nat.le_refl _) (ofTokens_eq_ok.mp ho)).1
      exact (reads_unique hr hread).1
    let q : Query := ⟨s, some e₁, none, limit, hl⟩
    let q' : Query := ⟨s', some e₂, none, limit, hl⟩
    let p : Query := ⟨s ++ " | " ++ s', some e, none, limit, hl⟩
    have hs : (p.env shared).registry.SteadyUpTo Failure.IsLimit := Registry.standard_steadyUpTo _
    have hreg : (q.env shared).registry = (p.env shared).registry := rfl
    have hreg' : (q'.env shared).registry = (p.env shared).registry := rfl
    have hm : Run.Matches Failure.IsLimit Value.Like (q.run v shared >>= (q'.run · shared))
        (p.run v shared) :=
      matches_piped (fun _ h => h) hs hreg hreg' rfl rfl he rfl hb _ _ _ _ _ _ v
    have hlimit : q.limit = q'.limit := rfl
    have htwo : Tells limit (q.run v shared >>= (q'.run · shared))
        (q.search v shared >>= (q'.search · shared)) :=
      Query.bind_told hlimit v shared
    have hone : Tells limit (p.run v shared) (p.search v shared) := Query.search_told v shared
    exact sameEnd_of_matches hm htwo hone (not_isLimit_of_tells htwo h₁)
      (not_isLimit_of_tells hone h₂)
  | error err =>
    have hp : Query.compile (s ++ " | " ++ s') none limit =
        .error (.source (.query (err.toQueryError.attach (s ++ " | " ++ s')))) := by
      rw [Query.compile, parse_eq_ofTokens hall, ho]
      rfl
    rw [hp]
    have hdeep : err.problem = .tooDeep :=
      tooDeep_of_accepted ho (Tokens.accepted_iff.mpr ⟨_, _, hread⟩)
    refine ⟨⟨err.found, err.context, congrArg (Cause.parse · err.found err.context) hdeep⟩, ?_⟩
    intro hlow
    obtain ⟨_, hfits⟩ := hshallow hlow
    have hspells : Spells (s ++ " | " ++ s') (lexemes all.items) :=
      ⟨all, mapError_eq_ok.mpr hall, rfl⟩
    obtain ⟨e', he', -⟩ := hspells.parse_iff.mpr hfits
    rw [parse_eq_ofTokens hall, ho] at he'
    cases he'

/-- Mapping a reference over items, with two pipes after it. -/
theorem pipe_search_map :
    let s : Text := "map(&a, b)"
    let s' : Text := "[] | [0]"
    let tokens : Tokens := ⟨[⟨.identifier "map", 0⟩, ⟨.symbol .leftParen, 3⟩,
      ⟨.symbol .ampersand, 4⟩, ⟨.identifier "a", 5⟩, ⟨.symbol .comma, 6⟩, ⟨.identifier "b", 8⟩,
      ⟨.symbol .rightParen, 9⟩], 10⟩
    ∃ q q' p, Query.compile s none defaultLimit = .ok q ∧
      Query.compile s' none defaultLimit = .ok q' ∧ Tokens.ofSource s = .ok tokens ∧
      Covered (lexemes tokens.items) ∧
      Query.compile (s ++ " | " ++ s') none defaultLimit = .ok p ∧
      ∀ v shared, ¬ ReachesLimit (q.search v shared >>= (q'.search · shared)) →
        ¬ ReachesLimit (p.search v shared) →
        SameEnd (q.search v shared >>= (q'.search · shared)) (p.search v shared) := by
  intro s s' tokens
  obtain ⟨q, hq⟩ : ∃ q, Query.compile s none defaultLimit = .ok q := ⟨_, rfl⟩
  obtain ⟨q', hq'⟩ : ∃ q', Query.compile s' none defaultLimit = .ok q' := ⟨_, rfl⟩
  obtain ⟨p, hp⟩ : ∃ p, Query.compile (s ++ " | " ++ s') none defaultLimit = .ok p := ⟨_, rfl⟩
  have ht : Tokens.ofSource s = .ok tokens := rfl
  have hc : Covered (lexemes tokens.items) := by
    intro v w h
    have hv : v = [.identifier "map", .symbol .leftParen] := by
      simp [tokens, lexemes, List.cons_eq_append_iff] at h
      exact h.1
    rw [hv]
    decide
  have h := pipe_search hq hq' ht hc
  rw [hp] at h
  exact ⟨q, q', p, hq, hq', ht, hc, hp, h⟩

end JsonQuery
