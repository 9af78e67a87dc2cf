/-
How a search may fail.

With the standard functions every failure of a search comes from a node of the tree of its source,
so it is one of the errors of evaluations, told with the source.  Besides these only a sum may
become too large, in a call of `sum` or `avg`.

* `Query.run_ends` — the evaluation of a query on a document only fails at nodes of its tree;
* `search_outcome` — how a search may end;
* `parse_offset_le` — the nodes of the tree of a source stand in the source;
* `search_error_place` — an error is told at the node that it is due to.
-/
import JsonQuery.Proofs.Compile
import JsonQuery.Proofs.Function.Sound
import JsonQuery.Proofs.Grammar.Move

namespace JsonQuery

open Run Value Failure

namespace Query
variable {q : Query}

/-- The evaluation of a query on a document only fails at nodes of its tree. -/
theorem run_ends {e : Expr} (hr : q.registry = none) (he : q.expr = some e) (j : Json)
    (shared : Sharing) :
    Ends (RefersTo e) (ComesFrom e q.limit) (q.run (Data.ofJson j) shared) := by
  have hs : (q.env shared).registry.Sound := by
    rw [env, hr]
    exact Registry.standard_sound
  rw [run, he]
  exact (eval_ends hs nestingLimit).eval e.mem_walk_self (.ofJson j)

end Query

/-- An expression is a call of a function. -/
def Expr.IsCall (name : Text) (e : Expr) : Prop :=
  ∃ args o, e = .call name args o

/-- An expression is a slice with the step zero. -/
def Expr.IsZeroStep (e : Expr) : Prop :=
  ∃ s o, e = .atom (.slice s) o ∧ s.step = some 0

/-- A search on a document gives a value or an error of an evaluation that knows the source; only
a sum in a call of `sum` or `avg` may become too large besides.  Without calls in its tree a search
only fails at the limit or at a slice with the step zero. -/
theorem search_outcome {source : Text} {limit : Int} {q : Query}
    (hq : Query.compile source none limit = .ok q) (j : Json) (shared : Sharing) :
    ∃ e, q.expr = some e ∧
      (match q.search (Data.ofJson j) shared with
        | .ok _ => True
        | .error (.query err) => err.source = some source ∧ ∃ p, err.cause = .eval p
        | .error .sumOverflow => ∃ n ∈ e.walk, n.IsCall "sum" ∨ n.IsCall "avg"
        | .error _ => False) ∧
      ((∀ n ∈ e.walk, ∀ name, ¬ n.IsCall name) →
        match q.search (Data.ofJson j) shared with
        | .ok _ => True
        | .error (.query err) => err.cause = .eval (.recursionLimit limit) ∨
            err.cause = .eval .invalidSlice ∧ ∃ n ∈ e.walk, n.IsZeroStep
        | .error _ => False) := by
  obtain ⟨e, -, hl, rfl⟩ := Query.compile_eq_ok.mp hq
  refine ⟨e, rfl, ?_⟩
  have hrun := Query.run_ends (q := ⟨source, some e, none, limit, hl⟩) rfl rfl j shared
  rw [Query.search, Query.result]
  unfold Ends at hrun
  cases ho : (Query.run ⟨source, some e, none, limit, hl⟩ (Data.ofJson j) shared).outcome with
  | ok v => exact ⟨trivial, fun _ => trivial⟩
  | error f =>
    rw [ho] at hrun
    cases hrun with
    | call hn _ => exact ⟨⟨rfl, _, rfl⟩, fun hcall => absurd ⟨_, _, rfl⟩ (hcall _ hn _)⟩
    | slice hn hs => exact ⟨⟨rfl, _, rfl⟩, fun _ => .inr ⟨rfl, _, hn, _, _, rfl, hs⟩⟩
    | limit hn => exact ⟨⟨rfl, _, rfl⟩, fun _ => .inl rfl⟩
    | exhausted => exact ⟨⟨rfl, _, rfl⟩, fun _ => .inl rfl⟩
    | overflow hn hname =>
      refine ⟨⟨_, hn, ?_⟩, fun hcall => absurd ⟨_, _, rfl⟩ (hcall _ hn _)⟩
      rcases hname with rfl | rfl
      · exact .inl ⟨_, _, rfl⟩
      · exact .inr ⟨_, _, rfl⟩

theorem search_outcome_zero_step :
    let source : Text := "a[::0]"
    let document : Json := .obj [("a", .arr [.bool true])]
    let e : Expr := .binary .eachItem
      (.binary .step (.atom (.field "a") 0) (.atom (.slice ⟨none, none, some 0⟩) 1) 1)
      (.atom .identity 6) 1
    ∃ q, Query.compile source none defaultLimit = .ok q ∧ q.expr = some e ∧
      q.search (Data.ofJson document) =
        .error (.query ⟨.eval .invalidSlice, 1, some source⟩) ∧
      ∃ n ∈ e.walk, n.IsZeroStep := by
  intro source document e
  have hq : Query.compile source none defaultLimit =
      .ok ⟨source, some e, none, defaultLimit, by decide⟩ := rfl
  have hcall : ∀ n ∈ e.walk, ∀ name, ¬ n.IsCall name := by
    rintro n hn name ⟨args, o, rfl⟩
    simp [e, Expr.walk] at hn
  obtain ⟨e', he, -, h⟩ := search_outcome hq document .alike
  cases he
  obtain h | ⟨-, hslice⟩ := h hcall
  · cases h
  · exact ⟨_, hq, rfl, rfl, hslice⟩

/-! ### Where errors are told -/

/-- A problem arises at a node: at a call of the function that it names, at a slice with the step
zero, or, at the limit, at any node. -/
def EvalProblem.ArisesAt (n : Expr) : EvalProblem → Prop
  | .unknownFunction name => n.IsCall name
  | .invalidArity name _ _ _ => n.IsCall name
  | .invalidType name _ _ _ => n.IsCall name
  | .invalidSortKey name _ => n.IsCall name
  | .invalidSlice => n.IsZeroStep
  | .recursionLimit _ => True

theorem EvalProblem.Blames.arisesAt {p : EvalProblem} {name : Text} (h : p.Blames name)
    (args : List Expr) (o : Nat) : p.ArisesAt (.call name args o) := by
  cases p with
  | invalidSlice | recursionLimit => exact h.elim
  | unknownFunction | invalidArity | invalidType | invalidSortKey =>
    obtain rfl := h
    exact ⟨args, o, rfl⟩

/-- A problem of an evaluation is told at the offset of a node at which it arises. -/
theorem Failure.ComesFrom.node {root : Expr} {limit : Int} {p : EvalProblem} {o : Int}
    (h : ComesFrom root limit (.problem p o)) :
    ∃ n ∈ root.walk, p.ArisesAt n ∧ o = n.offset := by
  cases h with
  | call hn hp => exact ⟨_, hn, hp.arisesAt _ _, rfl⟩
  | slice hn hs => exact ⟨_, hn, ⟨_, _, rfl, hs⟩, rfl⟩
  | limit hn => exact ⟨_, hn, trivial, rfl⟩

/-- The nodes of the tree of a source stand in the source or at its end. -/
theorem parse_offset_le {source : Text} {e n : Expr} (h : Expr.parse source = .ok e)
    (hn : n ∈ e.walk) : n.offset ≤ source.length := by
  obtain ⟨tokens, ht, he⟩ := Grammar.bind_eq_ok.mp h
  have hs : Tokens.ofSource source = .ok tokens := mapError_eq_ok.mp ht
  rcases Expr.ofTokens_offset (mapError_eq_ok.mp he) hn with ho | ⟨t, ht, ho⟩
  · rw [ho, Tokens.ofSource_stop hs]
  · obtain ⟨items, hscan, rfl⟩ := Grammar.map_eq_ok.mp hs
    have := (Token.scan_offset hscan ht).2
    omega

/-- Unless it runs out of steps, a search on a document tells an error at a node of the tree of its
source: at a call of the function that it names, at a slice with the step zero or, at the limit, at
some node.  That node stands in the source or at its end. -/
theorem search_error_place {source : Text} {limit : Int} {q : Query}
    (hq : Query.compile source none limit = .ok q) (j : Json) (shared : Sharing)
    {err : QueryError} (herr : q.search (Data.ofJson j) shared = .error (.query err))
    (hsteps : (q.run (Data.ofJson j) shared).outcome ≠ .error .exhausted) :
    ∃ e p, q.expr = some e ∧ err.cause = .eval p ∧
      ∃ n ∈ e.walk, p.ArisesAt n ∧ err.offset = n.offset ∧ n.offset ≤ source.length := by
  obtain ⟨e, hparse, hl, rfl⟩ := Query.compile_eq_ok.mp hq
  have hrun := Query.run_ends (q := ⟨source, some e, none, limit, hl⟩) rfl rfl j shared
  obtain ⟨f, hf, htold⟩ := Grammar.mapError_eq_error.mp herr
  rw [Ends, hf] at hrun
  cases f with
  | problem p o =>
    cases htold
    obtain ⟨n, hn, hp, ho⟩ := hrun.node
    exact ⟨e, p, rfl, rfl, n, hn, hp, ho, parse_offset_le hparse hn⟩
  | exhausted => exact absurd hf hsteps
  | sumOverflow | noExpression | host => cases htold

/-- Keys of two kinds, the second of which comes from a call further on in the source. -/
theorem search_error_place_mixed_keys :
    let source : Text := "map(&sort_by(@, &not_null(b)), a)"
    let document : Json := .obj [("a", .arr [.arr [.obj [("b", .str "x")], .obj []]])]
    let p : EvalProblem := .invalidSortKey "sort_by" "null"
    ∃ q e n, Query.compile source none defaultLimit = .ok q ∧ q.expr = some e ∧
      q.search (Data.ofJson document) = .error (.query ⟨.eval p, 5, some source⟩) ∧
      (q.run (Data.ofJson document)).outcome ≠ .error .exhausted ∧
      n ∈ e.walk ∧ n.IsCall "sort_by" ∧ n.offset = 5 ∧ n.offset ≤ source.length := by
  intro source document p
  let key : Expr := .call "not_null" [.atom (.field "b") 26] 17
  let e : Expr := .call "map" [.unary .reference
    (.call "sort_by" [.atom .current 13, .unary .reference key 16] 5) 4, .atom (.field "a") 31] 0
  let q : Query := ⟨source, some e, none, defaultLimit, by decide⟩
  have hq : Query.compile source none defaultLimit = .ok q := rfl
  have hout : (q.run (Data.ofJson document)).outcome = .error (.problem p 5) := rfl
  have herr : q.search (Data.ofJson document) = .error (.query ⟨.eval p, 5, some source⟩) := rfl
  have hsteps : (q.run (Data.ofJson document)).outcome ≠ .error .exhausted := by
    rw [hout]
    nofun
  obtain ⟨e', p', he, hp, n, hn, hat, ho, hle⟩ := search_error_place hq document .alike herr hsteps
  cases he
  cases hp
  exact ⟨q, e, n, hq, rfl, herr, hsteps, hn, hat, (Int.natCast_inj.mp ho).symm, hle⟩

end JsonQuery
