/-
Searches that give documents.

A query all of whose references are passed to functions that evaluate them gives, on a document, a
document again: its result holds no reference, no object in it has a key twice, and it has a JSON
text unless it is nested too deeply.  (All numbers are finite.)  Each node of a query may nest its
result one level deeper, so that there are results which are nested too deeply.

* `search_plain` — the results of such queries;
* `search_plain_nested` — a result that is nested too deeply to be written.
-/
import JsonQuery.Proofs.Compile
import JsonQuery.Proofs.Eval.Plain
import JsonQuery.Proofs.Json.Render

namespace JsonQuery

open Run Value

/-- The evaluation of a query that passes on its references, on a document and with any number of
pending steps. -/
theorem Query.ends_plain {q : Query} {e : Expr} (hr : q.registry = none) (hlit : e.DistinctLiterals)
    (href : e.PassesReferences) {j : Json} (hj : j.DistinctKeys) {deep : Prop}
    (hd : deep ∨ (e.height : Int) ≤ q.limit) (shared : Sharing) (steps : Nat) :
    Ends Plain (Failure.Shallow deep) (eval (q.env shared) steps 0 e (Data.ofJson j)) := by
  have henv : (q.env shared).registry = .standard := by rw [env, hr]; rfl
  have hroot : Expr.Evaluable e deep (q.env shared).limit 0 e := by
    refine ⟨e.mem_walk_self, href.1, hd.imp_right fun h => ?_⟩
    show _ ≤ q.limit
    omega
  exact (eval_plain henv hlit href steps).eval hroot (plain_ofJson hj)

/-- A plain value has a JSON text, unless it is nested too deeply. -/
theorem Value.Plain.exists_render {v : Value} (h : v.Plain) (hn : v.height ≤ nestingLimit)
    (indent : Option Nat) : ∃ t, v.render indent = .ok t := by
  obtain ⟨j, rfl⟩ := Data.exists_ofJson h.1
  rw [Data.ofJson, Data.height_mapRef] at hn
  exact ⟨_, Data.render_ofJson indent hn⟩

/-- Documents in, documents out: where every reference of a query is passed to `map`, `max_by`,
`min_by` or `sort_by`, what its search on a document gives holds no reference, no object in it has a
key twice, and it has a JSON text with every indentation unless it is nested too deeply. -/
theorem search_plain {source : Text} {limit : Int} {q : Query} {e : Expr}
    (hq : Query.compile source none limit = .ok q) (he : q.expr = some e)
    (href : e.PassesReferences) {j : Json} (hj : j.DistinctKeys) {shared : Sharing} {v : Value}
    (hv : q.search (Data.ofJson j) shared = .ok v) :
    v.hasRef = false ∧ v.DistinctKeys ∧
      (v.height ≤ nestingLimit → ∀ indent, ∃ t, v.render indent = .ok t) := by
  obtain ⟨e', hparse, hl, rfl⟩ := Query.compile_eq_ok.mp hq
  obtain rfl : e' = e := Option.some.inj he
  have hrun := Query.ends_plain (q := ⟨source, some e', none, limit, hl⟩) rfl
    (parse_distinct hparse) href hj (.inl trivial : True ∨ _) shared nestingLimit
  have hout := mapError_eq_ok.mp hv
  rw [Query.run] at hout
  rw [Ends, hout] at hrun
  exact ⟨hrun.1, hrun.2, fun hn => hrun.exists_render hn⟩

/-- One reference in the body of another, a hash with a key that stands twice, and a merge. -/
theorem search_plain_merged :
    let source : Text := "map(&merge(\x7ba: @, a: b\x7d, \x7bc: max_by(c, &d)\x7d), @)"
    let j : Json := .arr [.obj [("b", .str "x"),
      ("c", .arr [.obj [("d", .str "y")], .obj [("d", .str "z")]])]]
    let v : Value := .arr [.obj [("a", .str "x"), ("c", .obj [("d", .str "z")])]]
    ∃ q e, Query.compile source none defaultLimit = .ok q ∧ q.expr = some e ∧
      e.PassesReferences ∧ q.search (Data.ofJson j) = .ok v ∧ v.hasRef = false ∧ v.DistinctKeys ∧
      ∃ t, v.render none = .ok t := by
  intro source j v
  let a : Expr := .hash [("a", .atom .current 15), ("a", .atom (.field "b") 21)] 11
  let c : Expr := .hash [("c", .call "max_by"
    [.atom (.field "c") 36, .unary .reference (.atom (.field "d") 40) 39] 29)] 25
  let e : Expr := .call "map"
    [.unary .reference (.call "merge" [a, c] 5) 4, .atom .current 46] 0
  let q : Query := ⟨source, some e, none, defaultLimit, by decide⟩
  have hq : Query.compile source none defaultLimit = .ok q := rfl
  have href : e.PassesReferences := by decide
  have hj : j.DistinctKeys := by decide
  have hv : q.search (Data.ofJson j) = .ok v := rfl
  have hn : v.height ≤ nestingLimit := by decide
  obtain ⟨hr, hk, htext⟩ := search_plain hq rfl href hj hv
  exact ⟨q, e, hq, rfl, href, hv, hr, hk, htext hn none⟩

/-- What a computation shows of a source, of its tree and of a result. -/
theorem exists_search {source : Text} {limit : Int} {j : Json} {good : Expr → Value → Prop}
    [∀ e v, Decidable (good e v)]
    (h : (match Query.compile source none limit with
      | .ok q =>
        match q.expr, q.search (Data.ofJson j) with
        | some e, .ok v => decide (good e v)
        | _, _ => false
      | .error _ => false) = true) :
    ∃ q e v, Query.compile source none limit = .ok q ∧ q.expr = some e ∧
      q.search (Data.ofJson j) = .ok v ∧ good e v := by
  split at h
  · next q hq =>
    split at h
    · next e v he hv => exact ⟨q, e, v, hq, he, hv, of_decide_eq_true h⟩
    · cases h
  · cases h

/-- A pipe of queries, each of which nests what the one before gives in lists. -/
def nestingPipe (queries lists : Nat) : Text :=
  List.intercalate (Text.ofString " | ") (List.replicate queries
    (List.replicate lists (.scalar '[') ++ .scalar '@' :: List.replicate lists (.scalar ']')))

/-- A result that is nested too deeply to be written: each of twenty-four queries nests it in
twenty-five lists. -/
theorem search_plain_nested :
    ∃ q e v, Query.compile (nestingPipe 24 25) none defaultLimit = .ok q ∧ q.expr = some e ∧
      e.PassesReferences ∧ q.search (Data.ofJson (.bool true)) = .ok v ∧ v.hasRef = false ∧
      ∀ indent, v.render indent = .error .tooDeep := by
  have h : ∃ q e v, Query.compile (nestingPipe 24 25) none defaultLimit = .ok q ∧ q.expr = some e ∧
      q.search (Data.ofJson (.bool true)) = .ok v ∧
      e.PassesReferences ∧ v.hasRef = false ∧ v.kind ≠ .expref ∧ nestingLimit < v.height :=
    exists_search (by decide +kernel)
  obtain ⟨q, e, v, hq, he, hv, href, hr, hk, hdeep⟩ := h
  exact ⟨q, e, v, hq, he, href, hv, hr, fun indent => Data.render_tooDeep indent hk hdeep⟩

end JsonQuery
