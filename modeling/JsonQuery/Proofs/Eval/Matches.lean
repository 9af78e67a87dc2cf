/-
Evaluations that go side by side.

An expression may be evaluated in another source, at other offsets and under other bounds.  The
evaluations then go the same way, except where one of them reaches a bound: they give the same
result up to the offsets of the expressions in it, or fail for the same reason.  Which failures
may part them is said by a predicate `excused`.  The functions must not tell these circumstances
apart either (`Function.SteadyUpTo`).

* `Value.Like` — two values are the same up to offsets;
* `Run.Matches` — two evaluations have like outcomes, unless one has an excused failure;
* `eval_matches` — evaluations of the same bare expression on the same bare value match, if their
  bounds are equal or reaching a bound is excused;
* `matches_node_left`, `matches_node_right` — a node matches what matches the inside of it.
-/
import JsonQuery.Proofs.Eval.Keep
import JsonQuery.Proofs.Value

namespace JsonQuery

/-! ### Values that are the same up to offsets -/

/-- Two values are the same up to the offsets of the expressions in them. -/
def Value.Like (x y : Value) : Prop :=
  x.bare = y.bare

/-- Two lists of values are the same up to offsets. -/
def Value.LikeAll (xs ys : List Value) : Prop :=
  xs.map bare = ys.map bare

/-- How two values that are the same up to offsets are built. -/
inductive Value.Paired : Value → Value → Prop
  | null : Paired .null .null
  | bool {b} : Paired (.bool b) (.bool b)
  | num {x} : Paired (.num x) (.num x)
  | str {t} : Paired (.str t) (.str t)
  | arr {xs ys} : LikeAll xs ys → Paired (.arr xs) (.arr ys)
  | obj {es fs} : bareEntries es = bareEntries fs → Paired (.obj es) (.obj fs)
  | ref {b c x y} : b.bare = c.bare → Like x y → Paired (.ref b x) (.ref c y)

open Value

theorem Value.Like.paired {x y : Value} (h : Like x y) : Paired x y := by
  unfold Like at h
  cases x <;> cases y <;>
    simp only [bare_null, bare_bool, bare_num, bare_str, bare_arr, bare_obj, bare_ref,
      Data.bool.injEq, Data.num.injEq, Data.str.injEq, Data.arr.injEq, Data.obj.injEq,
      Data.ref.injEq, reduceCtorEq] at h
  case null.null => exact .null
  case bool.bool => exact h ▸ .bool
  case num.num => exact h ▸ .num
  case str.str => exact h ▸ .str
  case arr.arr => exact .arr h
  case obj.obj => exact .obj h
  case ref.ref => exact .ref h.1 h.2

theorem likeAll_cons {x y : Value} {xs ys : List Value} (h : Like x y) (hs : LikeAll xs ys) :
    LikeAll (x :: xs) (y :: ys) := by
  rw [LikeAll, List.map_cons, List.map_cons, h, hs]

theorem like_arr {xs ys : List Value} (h : LikeAll xs ys) : Like (.arr xs) (.arr ys) := by
  rw [Like, bare_arr, bare_arr, h]

theorem like_obj {es fs : Entries Value} (h : bareEntries es = bareEntries fs) :
    Like (.obj es) (.obj fs) := by
  rw [Like, bare_obj, bare_obj, h]

theorem forall₂_of_map_eq {α γ : Type} {view : α → γ} {xs ys : List α}
    (h : xs.map view = ys.map view) : List.Forall₂ (fun x y => view x = view y) xs ys := by
  rw [← List.forall₂_eq_eq_eq, List.forall₂_map_left_iff, List.forall₂_map_right_iff] at h
  exact h

theorem map_eq_of_forall₂ {α γ : Type} {view : α → γ} {xs ys : List α}
    (h : List.Forall₂ (fun x y => view x = view y) xs ys) : xs.map view = ys.map view := by
  rw [← List.forall₂_eq_eq_eq, List.forall₂_map_left_iff, List.forall₂_map_right_iff]
  exact h

/-- Lists that are the same up to offsets are so item by item. -/
theorem Value.LikeAll.items {xs ys : List Value} (h : LikeAll xs ys) : List.Forall₂ Like xs ys :=
  forall₂_of_map_eq h

theorem likeAll_of_items {xs ys : List Value} (h : List.Forall₂ Like xs ys) : LikeAll xs ys :=
  map_eq_of_forall₂ h

theorem Value.Like.isNull_eq {x y : Value} (h : Like x y) : x.isNull = y.isNull := by
  rw [← isNull_bare x, ← isNull_bare y, h]

theorem filter_bare (xs : List Value) :
    (xs.filter fun x => !x.isNull).map bare = (xs.map bare).filter fun x => !x.isNull := by
  rw [List.filter_map]
  congr 2
  funext x
  exact congrArg not (isNull_bare x).symm

theorem get?_bareEntries (es : List (Text × Value)) (k : Text) :
    Entries.get? (bareEntries es) k = (Entries.get? es k).map bare :=
  Data.get?_map es k

theorem bareEntries_insert (k : Text) (x : Value) (es : List (Text × Value)) :
    bareEntries (Entries.insert k x es) = Entries.insert k x.bare (bareEntries es) := by
  induction es with
  | nil => rfl
  | cons entry es ih =>
    obtain ⟨l, y⟩ := entry
    simp only [Entries.insert, bareEntries_cons]
    split
    · rfl
    · rw [bareEntries_cons, ih]

theorem bareEntries_update (es fs : List (Text × Value)) :
    bareEntries (Entries.update es fs) = Entries.update (bareEntries es) (bareEntries fs) := by
  induction fs generalizing es with
  | nil => rfl
  | cons entry fs ih =>
    obtain ⟨k, x⟩ := entry
    simp only [Entries.update, bareEntries_cons, List.foldl_cons] at ih ⊢
    rw [ih, bareEntries_insert]

theorem bareList_eq_map (es : List Expr) : Expr.bareList es = es.map Expr.bare := by
  induction es with
  | nil => simp only [Expr.bareList, List.map_nil]
  | cons e es ih => simp only [Expr.bareList, List.map_cons, ih]

theorem barePairs_eq_map (ps : List (Text × Expr)) :
    Expr.barePairs ps = ps.map fun p => (p.1, p.2.bare) := by
  induction ps with
  | nil => rfl
  | cons p ps ih => rw [Expr.barePairs, List.map_cons, ih]

/-! ### Failures -/

namespace Failure

/-- A failure without its offset. -/
def bare : Failure → Failure
  | .problem p _ => .problem p 0
  | f => f

/-- The failures of evaluations that reach a bound. -/
def IsLimit : Failure → Prop
  | .problem (.recursionLimit _) _ => True
  | .exhausted => True
  | _ => False

end Failure

/-! ### Runs that match -/

namespace Run
variable {α β γ δ : Type} {excused : Failure → Prop} {rel : α → β → Prop}

/-- Two evaluations have like outcomes, unless one of them has an excused failure. -/
def Matches (excused : Failure → Prop) (rel : α → β → Prop) (x : Run α) (y : Run β) : Prop :=
  match x.outcome, y.outcome with
  | .ok a, .ok b => rel a b
  | .error f, .error g => f.bare = g.bare ∨ excused f ∨ excused g
  | .error f, .ok _ => excused f
  | .ok _, .error g => excused g

theorem matches_pure {a : α} {b : β} (h : rel a b) :
    Matches excused rel (Pure.pure a : Run α) (Pure.pure b : Run β) :=
  h

theorem matches_fail {f g : Failure} (h : f.bare = g.bare) :
    Matches excused rel (fail f) (fail g) :=
  .inl h

theorem matches_fail_left {f : Failure} {y : Run β} (h : excused f) :
    Matches excused rel (fail f) y := by
  unfold Matches
  rw [outcome_fail]
  cases y.outcome with
  | ok => exact h
  | error => exact .inr (.inl h)

theorem matches_fail_right {x : Run α} {g : Failure} (h : excused g) :
    Matches excused rel x (fail g) := by
  unfold Matches
  rw [outcome_fail]
  cases x.outcome with
  | ok => exact h
  | error => exact .inr (.inr h)

theorem outcome_bind_of_ok {x : Run α} {f : α → Run γ} {a : α} (h : x.outcome = .ok a) :
    (x >>= f).outcome = (f a).outcome := by
  rw [outcome_bind, h]
  rfl

theorem outcome_bind_of_error {x : Run α} {f : α → Run γ} {e : Failure}
    (h : x.outcome = .error e) : (x >>= f).outcome = .error e := by
  rw [outcome_bind, h]
  rfl

theorem matches_bind {rel' : γ → δ → Prop} {x : Run α} {y : Run β} {f : α → Run γ} {g : β → Run δ}
    (h : Matches excused rel x y) (hf : ∀ ⦃a b⦄, rel a b → Matches excused rel' (f a) (g b)) :
    Matches excused rel' (x >>= f) (y >>= g) := by
  unfold Matches at h
  cases hx : x.outcome with
  | ok a =>
    cases hy : y.outcome with
    | ok b =>
      rw [hx, hy] at h
      rw [Matches, outcome_bind_of_ok hx, outcome_bind_of_ok hy]
      exact hf h
    | error e =>
      rw [hx, hy] at h
      rw [Matches, outcome_bind_of_error hy]
      exact matches_fail_right h
  | error e =>
    cases hy : y.outcome with
    | ok b =>
      rw [hx, hy] at h
      rw [Matches, outcome_bind_of_error hx]
      exact matches_fail_left h
    | error e' =>
      rw [hx, hy] at h
      rw [Matches, outcome_bind_of_error hx, outcome_bind_of_error hy]
      exact h

theorem matches_afterCall {x : Run α} {y : Run β} {o o' : Int} (h : Matches excused rel x y) :
    Matches excused rel (x.afterCall o) (y.afterCall o') :=
  h

/-- Reaching a bound is excused. -/
def Lax (excused : Failure → Prop) : Prop :=
  ∀ ⦃f : Failure⦄, f.IsLimit → excused f

/-- Two evaluations are at the limit together, or that is excused. -/
theorem matches_guard {x : Run α} {y : Run β} {l l' o o' : Int} {d d' : Nat}
    (hl : Lax excused ∨ l = l') (hd : Lax excused ∨ d = d') (h : Matches excused rel x y) :
    Matches excused rel (if l < d + 1 then fail (.problem (.recursionLimit l) o) else x)
      (if l' < d' + 1 then fail (.problem (.recursionLimit l') o') else y) := by
  by_cases hlax : Lax excused
  · split
    · exact matches_fail_left (hlax trivial)
    · split
      · exact matches_fail_right (hlax trivial)
      · exact h
  · obtain rfl := hl.resolve_left hlax
    obtain rfl := hd.resolve_left hlax
    split
    · exact matches_fail rfl
    · exact h

/-- Matching relates evaluations, wherever their parts stand. -/
def matching (excused : Failure → Prop) : Relator where
  rel := Matches excused
  place _ _ := True
  pure := matches_pure
  fail h := by
    cases h with
    | problem | sumOverflow | exhausted | host => exact matches_fail rfl
  bind := matches_bind
  afterCall _ := matches_afterCall

end Run

/-- Being the same up to offsets is a likeness. -/
def Likeness.bare : Likeness where
  exact := True
  body e e' := e.bare = e'.bare
  value := Like
  entries es fs := bareEntries es = bareEntries fs
  built := by
    intro x y
    constructor
    · intro h
      cases h.paired with
      | null => exact .null
      | bool => exact .bool
      | num => exact .num rfl fun _ => rfl
      | str => exact .str
      | arr hi => exact .arr hi.items
      | obj he => exact .obj he
      | ref hb hx => exact .ref hb hx
    · intro h
      cases h with
      | null | bool | str => rfl
      | num _ h =>
        obtain rfl := h trivial
        rfl
      | arr hi => exact like_arr (likeAll_of_items hi)
      | obj he => exact like_obj he
      | ref hb hx => rw [Like, bare_ref, bare_ref, hb, hx]
  get? {es fs} h k := by
    have hk : (Entries.get? es k).map Value.bare = (Entries.get? fs k).map Value.bare := by
      rw [← get?_bareEntries, ← get?_bareEntries, h]
    generalize Entries.get? es k = x, Entries.get? fs k = y at hk
    cases x <;> cases y <;> simp only [Option.map_none, Option.map_some, reduceCtorEq,
      Option.some.injEq] at hk
    · exact .none
    · exact .some hk
  length_eq h := by simpa [bareEntries] using congrArg List.length h
  nil := rfl
  insert h hx k := by rw [bareEntries_insert, bareEntries_insert, h, hx]
  update h h' := by rw [bareEntries_update, bareEntries_update, h, h']

/-- Comparisons do not see offsets. -/
theorem Likeness.bare_compares {R : Run.Relator} {shared shared' : Sharing} (h : shared = shared') :
    Likeness.bare.Compares R shared shared' := by
  refine compares_of_equal?_eq ?_
  intro x x' y y' hx hy
  rw [h, ← equal?_bare shared' x y, ← equal?_bare shared' x' y', hx, hy]

/-- The order of keys and the JSON text are the same up to offsets. -/
theorem Likeness.bare_ordered : Likeness.bare.Ordered where
  exact := trivial
  entries {es fs} h := by
    refine (forall₂_of_map_eq h).imp ?_
    intro p q hpq
    exact Prod.mk.inj hpq
  render_eq {x y} h := by rw [← render_bare none x, ← render_bare none y, h]

open Run

variable {excused : Failure → Prop}

/-! ### Functions that do not tell where they are called -/

/-- Two circumstances of a call in which evaluations and calls match. -/
structure Call.Matches (excused : Failure → Prop) (c c' : Call) : Prop where
  shared : c.shared = c'.shared
  evaluate : ∀ ⦃e e' x x'⦄, e.bare = e'.bare → Like x x' →
    Run.Matches excused Like (c.evaluate e x) (c'.evaluate e' x')
  invoke : ∀ ⦃o o' name xs xs'⦄, LikeAll xs xs' →
    Run.Matches excused Like (c.invoke o name xs) (c'.invoke o' name xs')

/-- A function that does not tell where it is called, nor where the expressions in its arguments
stand, but for failures that are excused. -/
def Function.SteadyUpTo (excused : Failure → Prop) (f : Function) : Prop :=
  ∀ ⦃c c' xs xs'⦄, Call.Matches excused c c' → LikeAll xs xs' →
    Run.Matches excused Like (f.body c xs) (f.body c' xs')

/-- All functions of a registry are steady but for excused failures. -/
def Registry.SteadyUpTo (excused : Failure → Prop) (r : Registry) : Prop :=
  ∀ ⦃name f⦄, r.get? name = some f → f.SteadyUpTo excused

/-- The evaluations and calls of two environments match, each within its number of steps.  Their
depths may only differ where reaching a bound is excused. -/
structure MatchesAt (excused : Failure → Prop) (env env' : Env) (steps steps' : Nat) : Prop where
  eval : ∀ ⦃d d' e e' v v'⦄, Lax excused ∨ d = d' → e.bare = e'.bare → Like v v' →
    Matches excused Like (eval env steps d e v) (eval env' steps' d' e' v')
  invoke : ∀ ⦃d d' o o' name xs xs'⦄, Lax excused ∨ d = d' → LikeAll xs xs' →
    Matches excused Like (invoke env steps d o name xs) (invoke env' steps' d' o' name xs')

section
variable {env env' : Env} {steps steps' d d' o o' : Nat} {v v' : Value}
  (ih : MatchesAt excused env env' steps steps') (hl : Lax excused ∨ env.limit = env'.limit)
  (hd : Lax excused ∨ d = d') (hshared : env.shared = env'.shared)

theorem deeper (hd : Lax excused ∨ d = d') : Lax excused ∨ d + 1 = d' + 1 :=
  hd.imp_right (congrArg (· + 1))

include ih hd hshared

theorem invoke_matches (hr : env.registry = env'.registry)
    (hs : env.registry.SteadyUpTo excused) {o o' : Int} {name : Text} {xs xs' : List Value}
    (h : LikeAll xs xs') :
    Matches excused Like (invoke env (steps + 1) d o name xs)
      (invoke env' (steps' + 1) d' o' name xs') := by
  have hbody : ∀ ⦃f⦄, env.registry.get? name = some f → Matches excused Like
      (f.body ⟨env.source, d, env.limit, o, eval env steps d, invoke env steps d, env.shared⟩ xs)
      (f.body ⟨env'.source, d', env'.limit, o', eval env' steps' d', invoke env' steps' d',
        env'.shared⟩ xs') := by
    intro f hf
    refine hs hf ?_ h
    constructor
    · exact hshared
    · intro e e' x x' he hx
      exact ih.eval hd he hx
    · intro o o' name xs xs' hx
      exact ih.invoke hd hx
  exact rel_invoke (R := matching excused) (L := .bare) (A := .bare) hr trivial h.items hbody

include hl

theorem eval_succ_matches {e e' : Expr} (he : e.bare = e'.bare) (hv : Like v v') :
    Matches excused Like (eval env (steps + 1) d e v) (eval env' (steps' + 1) d' e' v') := by
  let R := matching excused
  let near : Expr → Expr → Prop := fun c c' => c.bare = c'.bare
  have hsub : ∀ ⦃c c' x x'⦄, near c c' → Like x x' →
      R.rel Like (eval env steps (d + 1) c x) (eval env' steps' (d' + 1) c' x') :=
    fun _ _ _ _ hc hx => ih.eval (deeper hd) hc hx
  have hg : ∀ o o', R.Guards Like env env' d d' o o' := fun _ _ _ _ h => matches_guard hl hd h
  -- Bare trees are equal only if they are built alike from such trees.
  have paired : Expr.Paired R .bare near e e' →
      Matches excused Like (eval env (steps + 1) d e v) (eval env' (steps' + 1) d' e' v') :=
    fun h => h.rel_eval hsub (Likeness.bare_compares hshared) (hg _ _) hv
  cases e <;> cases e' <;> simp only [Expr.bare, reduceCtorEq, Expr.atom.injEq, Expr.unary.injEq,
    Expr.binary.injEq, Expr.filter.injEq, Expr.list.injEq, Expr.hash.injEq, Expr.call.injEq,
    bareList_eq_map, and_true] at he
  case atom.atom =>
    subst he
    exact paired (.atom trivial fun _ _ => rfl)
  case unary.unary op a o op' a' o' =>
    obtain ⟨rfl, ha⟩ := he
    by_cases hop : op = .reference
    · subst hop
      exact paired (.reference ha)
    · exact paired (.unary hop ha)
  case binary.binary =>
    obtain ⟨rfl, ha, hb⟩ := he
    exact paired (.binary (fun _ => Likeness.bare_ordered) ha hb)
  case filter.filter => exact paired (.filter he.1 he.2.1 he.2.2)
  case list.list => exact paired (.list (forall₂_of_map_eq he))
  case hash.hash =>
    rw [barePairs_eq_map, barePairs_eq_map] at he
    refine paired (.hash ((forall₂_of_map_eq he).imp ?_))
    intro p q hpq
    exact Prod.mk.inj hpq
  case call.call =>
    obtain ⟨rfl, he⟩ := he
    exact rel_call (R := R) (L := .bare) trivial (hg _ _) (forall₂_of_map_eq he)
      (fun _ _ hc => hsub hc hv) fun _ _ hx => ih.invoke (deeper hd) (likeAll_of_items hx)

end

/-- Evaluations of expressions and values that are the same up to offsets match, in whatever
sources, if their bounds are the same or reaching a bound is excused. -/
theorem eval_matches {env env' : Env} (hr : env.registry = env'.registry)
    (hs : env.registry.SteadyUpTo excused) (hl : Lax excused ∨ env.limit = env'.limit)
    (hshared : env.shared = env'.shared) {steps steps' : Nat} (hn : Lax excused ∨ steps = steps') :
    MatchesAt excused env env' steps steps' := by
  -- Without steps left an evaluation reaches a bound, in step with the other or excused.
  induction steps generalizing steps' with
  | zero =>
    cases steps' with
    | zero =>
      constructor
      · intro d d' e e' v v' _ _ _
        rw [eval, eval]
        exact matches_fail rfl
      · intro d d' o o' name xs xs' _ _
        rw [invoke, invoke]
        exact matches_fail rfl
    | succ steps' =>
      have hlax : Lax excused := hn.resolve_right (Nat.succ_ne_zero steps').symm
      constructor
      · intro d d' e e' v v' _ _ _
        rw [eval]
        exact matches_fail_left (hlax trivial)
      · intro d d' o o' name xs xs' _ _
        rw [invoke]
        exact matches_fail_left (hlax trivial)
  | succ steps ih =>
    cases steps' with
    | zero =>
      have hlax : Lax excused := hn.resolve_right (Nat.succ_ne_zero steps)
      constructor
      · intro d d' e e' v v' _ _ _
        rw [eval.eq_1 env']
        exact matches_fail_right (hlax trivial)
      · intro d d' o o' name xs xs' _ _
        rw [invoke.eq_1 env']
        exact matches_fail_right (hlax trivial)
    | succ steps' =>
      have ih := ih (hn.imp_right Nat.succ.inj)
      constructor
      · intro d d' e e' v v' hd he hv
        exact eval_succ_matches ih hl hd hshared he hv
      · intro d d' o o' name xs xs' hd h
        exact invoke_matches ih hd hshared hr hs h

/-! ### One node more -/

section
variable {α : Type} {excused : Failure → Prop} {env : Env} {d : Nat} {o : Int} {e : Expr}
  {v : Value} {inner : Nat → Run Value} (hl : Lax excused)
  (he : ∀ steps, eval env (steps + 1) d e v = env.guard d o (inner steps))
include hl he

/-- Where reaching a bound is excused, a node matches what the evaluation behind its guard does. -/
theorem matches_node_right {rel : α → Value → Prop} {x : Run α}
    (h : ∀ steps, Matches excused rel x (inner steps)) (steps : Nat) :
    Matches excused rel x (eval env steps d e v) := by
  cases steps with
  | zero =>
    rw [eval]
    exact matches_fail_right (hl trivial)
  | succ steps =>
    rw [he, Env.guard]
    split
    · exact matches_fail_right (hl trivial)
    · exact h steps

theorem matches_node_left {rel : Value → α → Prop} {y : Run α}
    (h : ∀ steps, Matches excused rel (inner steps) y) (steps : Nat) :
    Matches excused rel (eval env steps d e v) y := by
  cases steps with
  | zero =>
    rw [eval]
    exact matches_fail_left (hl trivial)
  | succ steps =>
    rw [he, Env.guard]
    split
    · exact matches_fail_left (hl trivial)
    · exact h steps

end

end JsonQuery
