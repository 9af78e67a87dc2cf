/-
Searches below the limit.

The depth of a node that is evaluated is no more than its depth in the tree: a reference that is
passed on is evaluated by the function that it is passed to, less deep than it stands.  So a query
that is no higher than its limit does not reach it, however long or deep the document is.  What is
left is that more steps are pending than there may be, which is told as the limit too.

* `Query.reachesLimit_iff` — what evaluations are told as the limit;
* `search_within_limit` — a query that is no higher than its limit does not reach it.
-/
import JsonQuery.Proofs.Search.Alike
import JsonQuery.Proofs.Search.Plain

namespace JsonQuery

open Run Value

/-- A search tells the limit if its evaluation reaches it, or runs out of steps. -/
theorem Query.reachesLimit_iff {q : Query} {v : Value} {shared : Sharing} :
    ReachesLimit (q.search v shared) ↔
      ∃ f, (q.run v shared).outcome = .error f ∧ f.IsLimit := by
  constructor
  · rintro ⟨err, herr, hlimit⟩
    obtain ⟨f, hf, rfl⟩ := Grammar.mapError_eq_error.mp herr
    refine ⟨f, hf, ?_⟩
    cases f with
    | problem p o =>
      obtain ⟨l, hl⟩ := hlimit
      obtain rfl := Cause.eval.inj hl
      trivial
    | exhausted => trivial
    | sumOverflow | noExpression | host => exact hlimit.elim
  · rintro ⟨f, hf, hlimit⟩
    exact Classical.byContradiction fun hr =>
      not_isLimit_of_tells (search_told v shared) hr f hf hlimit

/-- A query all of whose references are passed to functions that evaluate them, and that is no
higher than its limit, does not reach the limit on any document: however many steps may be pending,
the evaluation does not end there.  So a search tells the limit only where the pending steps run
out. -/
theorem search_within_limit {source : Text} {limit : Int} {q : Query} {e : Expr}
    (hq : Query.compile source none limit = .ok q) (he : q.expr = some e)
    (href : e.PassesReferences) (hh : e.height ≤ limit) {j : Json} (hj : j.DistinctKeys) :
    (∀ shared steps l o, (eval (q.env shared) steps 0 e (Data.ofJson j)).outcome ≠
      .error (.problem (.recursionLimit l) o)) ∧
    ∀ shared, ReachesLimit (q.search (Data.ofJson j) shared) ↔
      (q.run (Data.ofJson j) shared).outcome = .error .exhausted := by
  obtain ⟨e', hparse, hl, rfl⟩ := Query.compile_eq_ok.mp hq
  obtain rfl : e' = e := Option.some.inj he
  have below : ∀ shared steps l o, (eval (Query.env ⟨source, some e', none, limit, hl⟩ shared)
      steps 0 e' (Data.ofJson j)).outcome ≠ .error (.problem (.recursionLimit l) o) := by
    intro shared steps l o hout
    have hends := Query.ends_plain (q := ⟨source, some e', none, limit, hl⟩) rfl
      (parse_distinct hparse) href hj (.inr hh : False ∨ _) shared steps
    rw [Ends, hout] at hends
    exact hends
  refine ⟨below, fun shared => Query.reachesLimit_iff.trans ⟨?_, fun h => ⟨_, h, trivial⟩⟩⟩
  rintro ⟨f, hf, hlimit⟩
  cases f with
  | problem p o =>
    cases p with
    | recursionLimit l => exact absurd hf (below shared nestingLimit l o)
    | unknownFunction | invalidArity | invalidType | invalidSlice | invalidSortKey =>
      exact hlimit.elim
  | exhausted => exact hf
  | sumOverflow | noExpression | host => exact hlimit.elim

/-- A reference inside another one, under a limit that is the height of the tree. -/
theorem search_within_limit_nested :
    let source : Text := "map(&max_by(@, &[a][0]), b)"
    let j : Json := .obj [("b", .arr [.arr [.obj [("a", .str "y")], .obj [("a", .str "x")]],
      .arr [], .arr [.obj [("a", .str "z")]]])]
    let v : Value := .arr [.obj [("a", .str "y")], .null, .obj [("a", .str "z")]]
    ∃ q e, Query.compile source none 7 = .ok q ∧ q.expr = some e ∧ e.PassesReferences ∧
      e.height = 7 ∧ q.search (Data.ofJson j) = .ok v ∧
      ∀ shared steps l o, (eval (q.env shared) steps 0 e (Data.ofJson j)).outcome ≠
        .error (.problem (.recursionLimit l) o) := by
  intro source j v
  let key : Expr := .binary .step (.list [.atom (.field "a") 17] 16) (.atom (.index 0) 19) 19
  let e : Expr := .call "map" [.unary .reference
    (.call "max_by" [.atom .current 12, .unary .reference key 15] 5) 4, .atom (.field "b") 25] 0
  let q : Query := ⟨source, some e, none, 7, by decide⟩
  have hq : Query.compile source none 7 = .ok q := rfl
  have href : e.PassesReferences := by decide
  have hh : (e.height : Int) ≤ 7 := by decide
  have hj : j.DistinctKeys := by decide
  exact ⟨q, e, hq, rfl, href, rfl, rfl, (search_within_limit hq rfl href hh hj).1⟩

end JsonQuery
