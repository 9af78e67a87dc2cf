/-
Searches that end alike.

Two searches end alike if they give the same value up to the offsets of the expressions in it, or
fail with errors of one class and message.  Where an error stands and which source it knows is put
aside; where the evaluations match, this is what is left of how they are told.

* `SearchError.bare`, `CompileError.bare` — errors without their places and sources;
* `SameEnd` — two searches end alike;
* `sameEnd_of_matches` — evaluations that match are told alike;
* `Query.bind_told` — one search on the result of another is told as one evaluation.
-/
import JsonQuery.Proofs.Compile
import JsonQuery.Proofs.Eval.Matches

namespace JsonQuery

open Run Value

/-! ### Errors without their places -/

/-- An error without its place and its source: its class and message are those of its cause. -/
def QueryError.bare (e : QueryError) : QueryError :=
  ⟨e.cause, 0, none⟩

/-- An error of a search without its place and its source. -/
def SearchError.bare : SearchError → SearchError
  | .query e => .query e.bare
  | e => e

/-- An error of compiling without its place and its source. -/
def CompileError.bare : CompileError → CompileError
  | .source (.query e) => .source (.query e.bare)
  | e => e

/-- The errors of searches that reach the limit. -/
def SearchError.IsLimit : SearchError → Prop
  | .query e => ∃ limit, e.cause = .eval (.recursionLimit limit)
  | _ => False

/-- A search reaches the limit. -/
def ReachesLimit (r : Except SearchError Value) : Prop :=
  ∃ e, r = .error e ∧ e.IsLimit

theorem not_reachesLimit_ok (x : Value) : ¬ ReachesLimit (.ok x) := by
  rintro ⟨e, ⟨⟩, -⟩

/-- Two searches give the same value up to offsets, or fail for the same reason. -/
def SameEnd (r r' : Except SearchError Value) : Prop :=
  match r, r' with
  | .ok x, .ok y => Like x y
  | .error e, .error e' => e.bare = e'.bare
  | _, _ => False

/-! ### How evaluations are told -/

/-- What a failure of an evaluation under a limit is told as, without place and source. -/
def Failure.told (limit : Int) : Failure → SearchError
  | .problem p _ => .query ⟨.eval p, 0, none⟩
  | .sumOverflow => .sumOverflow
  | .exhausted => .query ⟨.eval (.recursionLimit limit), 0, none⟩
  | .noExpression => .noExpression
  | .host f => .host f

/-- A search ends as an evaluation under a limit does. -/
def Tells (limit : Int) (run : Run Value) (r : Except SearchError Value) : Prop :=
  r.mapError SearchError.bare = run.outcome.mapError (Failure.told limit)

theorem told_congr {limit : Int} {f g : Failure} (h : f.bare = g.bare) :
    f.told limit = g.told limit := by
  cases f <;> cases g <;> simp only [Failure.bare, Failure.problem.injEq, Failure.host.injEq,
    reduceCtorEq] at h
  case problem.problem => rw [Failure.told, Failure.told, h.1]
  case host.host => rw [h]
  all_goals rfl

theorem isLimit_of_told {limit : Int} {e : SearchError} {f : Failure}
    (h : e.bare = f.told limit) (hf : f.IsLimit) : e.IsLimit := by
  -- Running out of steps is told as the limit too.
  have hquery : ∃ l, e.bare = .query ⟨.eval (.recursionLimit l), 0, none⟩ := by
    cases f with
    | exhausted => exact ⟨limit, h⟩
    | problem p o =>
      cases p with
      | recursionLimit l => exact ⟨l, h⟩
      | _ => exact hf.elim
    | _ => exact hf.elim
  obtain ⟨l, h⟩ := hquery
  cases e with
  | query e =>
    have hc : e.bare.cause = .eval (.recursionLimit l) := by
      rw [SearchError.query.inj h]
    exact ⟨l, hc⟩
  | _ => cases h

/-- A search that does not reach the limit is that of an evaluation that does not. -/
theorem not_isLimit_of_tells {limit : Int} {run : Run Value} {r : Except SearchError Value}
    (h : Tells limit run r) (hr : ¬ ReachesLimit r) (f : Failure) (hf : run.outcome = .error f) :
    ¬ f.IsLimit := by
  intro hlimit
  rw [Tells, hf] at h
  obtain ⟨e, rfl, he⟩ := Grammar.mapError_eq_error.mp h
  exact hr ⟨e, rfl, isLimit_of_told he hlimit⟩

namespace Query
variable {q q' : Query}

theorem searchError_bare (lastCall : Option Int) (f : Failure) :
    (q.searchError lastCall f).bare = f.told q.limit := by
  cases f <;> rfl

/-- A search is told as its evaluation. -/
theorem search_told (v : Value) (shared : Sharing) :
    Tells q.limit (q.run v shared) (q.search v shared) := by
  rw [Tells, search, result]
  cases (q.run v shared).outcome with
  | ok x => rfl
  | error f => exact congrArg Except.error (searchError_bare _ f)

/-- One search on the result of another is told as one evaluation after the other. -/
theorem bind_told (h : q.limit = q'.limit) (v : Value) (shared : Sharing) :
    Tells q.limit (q.run v shared >>= (q'.run · shared))
      (q.search v shared >>= (q'.search · shared)) := by
  have hq := search_told (q := q) v shared
  unfold Tells at hq ⊢
  rw [outcome_bind]
  cases hv : (q.run v shared).outcome with
  | ok x =>
    rw [hv] at hq
    rw [mapError_eq_ok.mp hq]
    have hx := search_told (q := q') x shared
    rw [← h] at hx
    exact hx
  | error f =>
    rw [hv] at hq
    cases hs : q.search v shared with
    | ok y => rw [hs] at hq; cases hq
    | error e =>
      rw [hs] at hq
      exact hq

end Query

/-- Evaluations that match are told alike, unless one has an excused failure. -/
theorem sameEnd_of_matches {excused : Failure → Prop} {limit : Int} {x y : Run Value}
    {r r' : Except SearchError Value} (h : Matches excused Like x y) (hx : Tells limit x r)
    (hy : Tells limit y r') (hr : ∀ f, x.outcome = .error f → ¬ excused f)
    (hr' : ∀ g, y.outcome = .error g → ¬ excused g) : SameEnd r r' := by
  unfold Matches at h
  unfold Tells at hx hy
  cases hox : x.outcome with
  | ok a =>
    cases hoy : y.outcome with
    | ok b =>
      rw [hox, hoy] at h
      rw [hox] at hx
      rw [hoy] at hy
      rw [mapError_eq_ok.mp hx, mapError_eq_ok.mp hy]
      exact h
    | error g =>
      rw [hox, hoy] at h
      exact absurd h (hr' g hoy)
  | error f =>
    cases hoy : y.outcome with
    | ok b =>
      rw [hox, hoy] at h
      exact absurd h (hr f hox)
    | error g =>
      rw [hox, hoy] at h
      rw [hox] at hx
      rw [hoy] at hy
      obtain ⟨e, rfl, he⟩ := Grammar.mapError_eq_error.mp hx
      obtain ⟨e', rfl, he'⟩ := Grammar.mapError_eq_error.mp hy
      have hb : f.bare = g.bare := by
        rcases h with h | h | h
        · exact h
        · exact absurd h (hr f hox)
        · exact absurd h (hr' g hoy)
      exact he.trans ((told_congr hb).trans he'.symm)

/-- So queries of the same expression with the same functions and limit find the same. -/
theorem search_sameEnd {q q' : Query} {e e' : Expr} (he : q.expr = some e) (he' : q'.expr = some e')
    (hb : e.bare = e'.bare) (hr : q.registry = q'.registry) (hl : q.limit = q'.limit)
    (hs : q.env.registry.SteadyUpTo fun _ => False) {v v' : Value} (hv : Like v v')
    (shared : Sharing) : SameEnd (q.search v shared) (q'.search v' shared) := by
  have henv : (q.env shared).registry = (q'.env shared).registry :=
    congrArg (Option.getD · Registry.standard) hr
  have hshared : (q.env shared).shared = (q'.env shared).shared := rfl
  have hm : Matches (fun _ => False) Like (q.run v shared) (q'.run v' shared) := by
    rw [Query.run, Query.run, he, he']
    exact (eval_matches henv hs (.inr hl) hshared (.inr rfl)).eval (.inr rfl) hb hv
  have h' := Query.search_told (q := q') v' shared
  rw [← hl] at h'
  exact sameEnd_of_matches hm (Query.search_told v shared) h' (fun _ _ h => h) fun _ _ h => h

end JsonQuery
