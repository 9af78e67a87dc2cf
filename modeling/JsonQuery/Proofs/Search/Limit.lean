/-
The limit of a query.

The limit only decides whether a search reaches it.  A search that does not gives the same under
every higher limit, to the place of its error, as long as no function of the embedding program
tells the limit itself: such a function is handed the limit and may return it.

* `search_persists` — a search that does not reach the limit is the same under a higher one, if the
  functions of its registry do not tell the limit;
* `search_persists_told` — with a function that does, a search may give another value.
-/
import JsonQuery.Proofs.Eval.Persist
import JsonQuery.Proofs.Search.Alike

namespace JsonQuery

open Run

namespace Query
variable {q q' : Query}

/-- The functions of a query tell the limit only by reaching it, if those that it is given do. -/
theorem env_persists (hp : ∀ r, q.registry = some r → r.Persists) (shared : Sharing) :
    (q.env shared).registry.Persists := by
  rw [env]
  cases h : q.registry with
  | none => exact Registry.standard_persists
  | some r => exact hp r h

theorem run_persists (hs : q.source = q'.source) (he : q.expr = q'.expr)
    (hr : q.registry = q'.registry) (hl : q.limit ≤ q'.limit)
    (hp : ∀ r, q.registry = some r → r.Persists) (v : Value) (shared : Sharing) :
    (q.run v shared).Persists (q'.run v shared) := by
  have henv : (q.env shared).registry = (q'.env shared).registry :=
    congrArg (Option.getD · Registry.standard) hr
  have hshared : (q.env shared).shared = (q'.env shared).shared := rfl
  have hat : PersistsAt Eq (q.env shared) (q'.env shared) nestingLimit nestingLimit :=
    eval_higher hs henv (env_persists hp shared) hl hshared (Nat.le_refl _)
  rw [run, run, ← he]
  cases q.expr with
  | none => exact .inr ⟨rfl, .error _⟩
  | some e => exact hat.eval rfl e v

/-- A failure that is no matter of the limit is told without it. -/
theorem searchError_eq (hs : q.source = q'.source) {f : Failure} (hf : ¬ f.IsLimit)
    (lastCall : Option Int) : q.searchError lastCall f = q'.searchError lastCall f := by
  cases f with
  | problem p o => rw [searchError, searchError, hs]
  | exhausted => exact absurd trivial hf
  | sumOverflow | noExpression | host => rfl

end Query

/-- A search that does not reach the limit gives the same value or the same error, with its place,
under every higher limit, if the registry of the query is the standard one or one none of whose
functions tells the limit but by reaching it. -/
theorem search_persists {q q' : Query} (hs : q.source = q'.source) (he : q.expr = q'.expr)
    (hr : q.registry = q'.registry) (hl : q.limit ≤ q'.limit)
    (hp : ∀ r, q.registry = some r → r.Persists) (v : Value) (shared : Sharing)
    (h : ¬ ReachesLimit (q.search v shared)) : q'.search v shared = q.search v shared := by
  have hlimit := not_isLimit_of_tells (Query.search_told v shared) h
  rcases Query.run_persists hs he hr hl hp v shared with ⟨f, hf, hreach⟩ | ⟨hcall, hout⟩
  · exact absurd hreach (hlimit f hf)
  · rw [Query.search, Query.search, Query.result, Query.result, ← hcall, ← hout.eq]
    cases ho : (q.run v shared).outcome with
    | ok x => rfl
    | error f => exact congrArg Except.error (Query.searchError_eq hs (hlimit f ho) _).symm

/-! ### Functions of an embedding program -/

/-- Evaluates a reference on a value. -/
def Function.applying : Function :=
  .ofHost ⟨[.one .expref, .one .any], none, .one .any⟩ fun c args =>
    match args with
    | [.ref body _, x] => do
      let y ← c.evaluate body x
      Run.pure (.value y)
    | _ => Run.pure .null

/-- Tells the limit, in words. -/
def Function.telling : Function :=
  .ofHost ⟨[], none, .one .string⟩ fun c _ => Run.pure (.str (Text.ofInt c.limit))

theorem Function.applying_persists : Function.applying.Persists := by
  refine ofHost_persists ?_
  intro c c' hc args
  split
  · next body _ x => exact persists_bind (hc.evaluate body x) fun _ => persists_self _
  · exact persists_self _

/-- The built-in functions and one more. -/
def Registry.builtinsWith (name : Text) (f : Function) : Registry :=
  ⟨Registry.builtins.functions.insert name f, false⟩

/-- A function of the embedding program that evaluates a reference to a call with an argument of the
wrong type, under the least limit that lets it get there and under the default limit. -/
theorem search_persists_wrong_argument :
    let registry := Registry.builtinsWith "apply" .applying
    let source : Text := "apply(&length(b), @)"
    let document : Json := .obj [("b", .bool true)]
    let err : SearchError := .query
      ⟨.eval (.invalidType "length" 0 "string|array|object" "boolean"), 7, some source⟩
    ∃ q q', Query.compile source (some registry) 3 = .ok q ∧
      Query.compile source (some registry) defaultLimit = .ok q' ∧
      q.search (Data.ofJson document) = .error err ∧ ¬ err.IsLimit ∧
      q'.search (Data.ofJson document) = .error err := by
  intro registry source document err
  let e : Expr := .call "apply"
    [.unary .reference (.call "length" [.atom (.field "b") 14] 7) 6, .atom .current 18] 0
  let q : Query := ⟨source, some e, some registry, 3, by decide⟩
  let q' : Query := ⟨source, some e, some registry, defaultLimit, by decide⟩
  have hq : Query.compile source (some registry) 3 = .ok q := rfl
  have hq' : Query.compile source (some registry) defaultLimit = .ok q' := rfl
  have hfound : q.search (Data.ofJson document) = .error err := rfl
  have herr : ¬ err.IsLimit := by
    rintro ⟨l, h⟩
    cases h
  have hlow : ¬ ReachesLimit (q.search (Data.ofJson document)) := by
    rw [hfound]
    rintro ⟨e', h, hlimit⟩
    cases h
    exact herr hlimit
  have hp : ∀ r, q.registry = some r → r.Persists := by
    intro r hr
    obtain rfl := Option.some.inj hr
    exact Registry.standard_persists.insert "apply" Function.applying_persists false
  have hs : q.source = q'.source := rfl
  have he : q.expr = q'.expr := rfl
  have hr : q.registry = q'.registry := rfl
  have hl : q.limit ≤ q'.limit := by decide
  have h := search_persists hs he hr hl hp (Data.ofJson document) .alike hlow
  exact ⟨q, q', hq, hq', hfound, herr, h.trans hfound⟩

/-- A function that tells the limit gives another value under a higher one. -/
theorem search_persists_told :
    let registry := Registry.builtinsWith "limit" .telling
    ∃ q q', Query.compile "limit()" (some registry) 10 = .ok q ∧
      Query.compile "limit()" (some registry) 20 = .ok q' ∧ q.limit ≤ q'.limit ∧
      ¬ ReachesLimit (q.search .null) ∧ q.search .null = .ok (.str "10") ∧
      q'.search .null = .ok (.str "20") := by
  intro registry
  let e : Expr := .call "limit" [] 0
  let q : Query := ⟨"limit()", some e, some registry, 10, by decide⟩
  let q' : Query := ⟨"limit()", some e, some registry, 20, by decide⟩
  have hlow : q.search .null = .ok (.str "10") := rfl
  exact ⟨q, q', rfl, rfl, by decide, hlow ▸ not_reachesLimit_ok _, hlow, rfl⟩

end JsonQuery
