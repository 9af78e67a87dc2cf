/-
Where failures come from.

All that an evaluation computes with comes from the document and from one tree: the expressions in
values are nodes of the tree (`Value.RefersTo`), and so are all expressions that are evaluated.
Every failure therefore comes from a node: a call, a slice or, at the limit, any node at all
(`Failure.ComesFrom`).  This holds for functions that fail in no other way (`Function.Sound`).

* `Run.Ends` — how an evaluation may end;
* `eval_ends` — evaluations of the nodes of a tree only fail at nodes of that tree.
-/
import JsonQuery.Proofs.Eval.Matches
import JsonQuery.Proofs.Expr.Walk

namespace JsonQuery

/-! ### How evaluations may end -/

namespace Run
variable {α β γ : Type} {good : α → Prop} {may : Failure → Prop}

/-- An evaluation gives a result that is good, or fails in a way that it may. -/
def Ends (good : α → Prop) (may : Failure → Prop) (x : Run α) : Prop :=
  match x.outcome with
  | .ok a => good a
  | .error f => may f

theorem ends_pure {a : α} (h : good a) : Ends good may (Pure.pure a : Run α) :=
  h

theorem ends_fail {f : Failure} (h : may f) : Ends good may (fail f) :=
  h

theorem ends_bind {good' : β → Prop} {x : Run α} {f : α → Run β} (h : Ends good may x)
    (hf : ∀ ⦃a⦄, good a → Ends good' may (f a)) : Ends good' may (x >>= f) := by
  unfold Ends at h
  cases hx : x.outcome with
  | ok a =>
    rw [hx] at h
    rw [Ends, outcome_bind_of_ok hx]
    exact hf h
  | error e =>
    rw [hx] at h
    rw [Ends, outcome_bind_of_error hx]
    exact h

theorem ends_imp {good' : α → Prop} {x : Run α} (h : Ends good may x)
    (hg : ∀ ⦃a⦄, good a → good' a) : Ends good' may x := by
  unfold Ends at h ⊢
  cases hx : x.outcome with
  | ok a =>
    rw [hx] at h
    exact hg h
  | error f =>
    rw [hx] at h
    exact h

theorem ends_guard {p : Prop} [Decidable p] {f : Failure} {x : Run α} (hf : may f)
    (h : Ends good may x) : Ends good may (if p then fail f else x) := by
  split
  · exact ends_fail hf
  · exact h

theorem ends_afterCall {x : Run α} {o : Int} (h : Ends good may x) :
    Ends good may (x.afterCall o) :=
  h

theorem ends_mapM {f : γ → Run α} {xs : List γ} (hf : ∀ x ∈ xs, Ends good may (f x)) :
    Ends (fun ys => ∀ y ∈ ys, good y) may (xs.mapM f) := by
  induction xs with
  | nil => exact ends_pure nofun
  | cons x xs ih =>
    obtain ⟨hx, hxs⟩ := List.forall_mem_cons.mp hf
    rw [List.mapM_cons]
    refine ends_bind hx ?_
    intro y hy
    refine ends_bind (ih hxs) ?_
    intro ys hys
    exact ends_pure (List.forall_mem_cons.mpr ⟨hy, hys⟩)

end Run

open Run

/-! ### Values whose expressions are nodes of a tree -/

/-- All expressions in a value are nodes of a tree. -/
inductive Value.RefersTo (root : Expr) : Value → Prop
  | null : RefersTo root .null
  | bool {b} : RefersTo root (.bool b)
  | num {x} : RefersTo root (.num x)
  | str {t} : RefersTo root (.str t)
  | arr {xs} : (∀ x ∈ xs, RefersTo root x) → RefersTo root (.arr xs)
  | obj {es} : (∀ entry ∈ es, RefersTo root entry.2) → RefersTo root (.obj es)
  | ref {body context} : body ∈ root.walk → RefersTo root context →
    RefersTo root (.ref body context)

namespace Value.RefersTo
variable {root : Expr}

theorem items {xs : List Value} (h : RefersTo root (.arr xs)) :
    ∀ x ∈ xs, RefersTo root x := by
  cases h
  assumption

theorem entries {es : Entries Value} (h : RefersTo root (.obj es)) :
    ∀ entry ∈ es, RefersTo root entry.2 := by
  cases h
  assumption

theorem values {es : Entries Value} (h : ∀ entry ∈ es, RefersTo root entry.2) :
    ∀ x ∈ es.map Prod.snd, RefersTo root x := by
  intro x hx
  obtain ⟨entry, he, rfl⟩ := List.mem_map.mp hx
  exact h entry he

mutual

/-- A document holds no expression. -/
theorem ofJson : ∀ j : Json, RefersTo root (Data.ofJson j)
  | .null => .null
  | .bool _ => .bool
  | .num _ => .num
  | .str _ => .str
  | .arr items => .arr (ofItems items)
  | .obj entries => .obj (ofEntries entries)
  | .ref body _ => body.elim

theorem ofItems :
    ∀ js : List Json, ∀ x ∈ Data.mapRefItems Empty.elim js, RefersTo root x
  | [] => nofun
  | j :: js => List.forall_mem_cons.mpr ⟨ofJson j, ofItems js⟩

theorem ofEntries :
    ∀ js : List (Text × Json), ∀ entry ∈ Data.mapRefEntries Empty.elim js, RefersTo root entry.2
  | [] => nofun
  | (_, j) :: js => List.forall_mem_cons.mpr ⟨ofJson j, ofEntries js⟩

end

theorem get? {es : Entries Value} (h : ∀ entry ∈ es, RefersTo root entry.2) (k : Text) :
    RefersTo root ((Entries.get? es k).getD .null) := by
  cases hx : Entries.get? es k with
  | none => exact .null
  | some x => exact h (k, x) (Entries.mem_of_get? hx)

theorem getField {x : Value} (h : RefersTo root x) (name : Text) :
    RefersTo root (x.getField name) := by
  cases h with
  | obj he => exact get? he name
  | null | bool | num | str | arr | ref => exact .null

theorem getElem? {xs : List Value} (h : ∀ x ∈ xs, RefersTo root x) (n : Nat) :
    RefersTo root (xs[n]?.getD .null) := by
  cases hx : xs[n]? with
  | none => exact .null
  | some x => exact h x (List.mem_of_getElem? hx)

theorem getIndex {x : Value} (h : RefersTo root x) (i : Int) :
    RefersTo root (x.getIndex i) := by
  cases h with
  | arr hi =>
    simp only [Data.getIndex]
    generalize (if i < 0 then i + (_ : Int) else i) = place
    split
    · exact .null
    · exact getElem? hi _
  | null | bool | num | str | obj | ref => exact .null

theorem slice {x : Value} (h : RefersTo root x) (s : Slice) :
    RefersTo root (x.slice s) := by
  cases h with
  | arr hi =>
    refine .arr ?_
    intro x hx
    obtain ⟨n, -, hn⟩ := List.mem_filterMap.mp hx
    exact hi x (List.mem_of_getElem? hn)
  | null | bool | num | str | obj | ref => exact .null

theorem flattenItems {xs : List Value} (h : ∀ x ∈ xs, RefersTo root x) :
    ∀ y ∈ flattenItems xs, RefersTo root y := by
  intro y hy
  obtain ⟨x, hx, hy⟩ := List.mem_flatMap.mp hy
  have hr := h x hx
  match x, hy with
  | .arr inner, hy => exact hr.items y hy
  | .null, hy | .bool _, hy | .num _, hy | .str _, hy | .obj _, hy | .ref _ _, hy =>
    rwa [List.mem_singleton.mp hy]

end Value.RefersTo

open Value

/-! ### Failures at the nodes of a tree -/

/-- A problem that names the function in whose call it arises. -/
def EvalProblem.Blames (name : Text) : EvalProblem → Prop
  | .unknownFunction n => n = name
  | .invalidArity n _ _ _ => n = name
  | .invalidType n _ _ _ => n = name
  | .invalidSortKey n _ => n = name
  | .invalidSlice => False
  | .recursionLimit _ => False

/-- A failure comes from a node of a tree, under a limit. -/
inductive Failure.ComesFrom (root : Expr) (limit : Int) : Failure → Prop
  | call {name args p} {o : Nat} : .call name args o ∈ root.walk → p.Blames name →
    ComesFrom root limit (.problem p o)
  | slice {s} {o : Nat} : .atom (.slice s) o ∈ root.walk → s.step = some 0 →
    ComesFrom root limit (.problem .invalidSlice o)
  | limit {e} : e ∈ root.walk → ComesFrom root limit (.problem (.recursionLimit limit) e.offset)
  | exhausted : ComesFrom root limit .exhausted
  | overflow {name : Text} {args} {o : Nat} : .call name args o ∈ root.walk →
    name = "sum" ∨ name = "avg" → ComesFrom root limit .sumOverflow

open Failure

/-- The circumstances of a call of a function by its name in a tree. -/
structure Call.Within (root : Expr) (limit : Int) (name : Text) (c : Call) : Prop where
  node : ∃ (args : List Expr) (o : Nat), .call name args o ∈ root.walk ∧ c.offset = o
  evaluate : ∀ ⦃e x⦄, e ∈ root.walk → RefersTo root x →
    Ends (RefersTo root) (ComesFrom root limit) (c.evaluate e x)

/-- A function that, called under its name with arguments of its types, gives what its arguments
lead to or fails for a reason that names it. -/
def Function.Sound (name : Text) (f : Function) : Prop :=
  ∀ ⦃root limit c xs⦄, Call.Within root limit name c → (∀ x ∈ xs, RefersTo root x) →
    f.signature.check name xs = .ok () → Ends (RefersTo root) (ComesFrom root limit) (f.body c xs)

/-- All functions of a registry are sound. -/
def Registry.Sound (r : Registry) : Prop :=
  ∀ ⦃name f⦄, r.get? name = some f → f.Sound name

theorem Signature.checkTypes_blames {s : Signature} {name : Text} {position : Nat}
    {xs : List Value} {p : EvalProblem} (h : s.checkTypes name position xs = .error p) :
    p.Blames name := by
  induction xs generalizing position with
  | nil => cases h
  | cons x xs ih =>
    rw [checkTypes] at h
    split at h
    · split at h
      · exact ih h
      · cases h
        rfl
    · exact ih h

theorem Signature.check_blames {s : Signature} {name : Text} {xs : List Value} {p : EvalProblem}
    (h : s.check name xs = .error p) : p.Blames name := by
  rw [check] at h
  split at h
  · cases h
    rfl
  · exact checkTypes_blames h

/-! ### Evaluations -/

section
variable {root : Expr} {limit : Int}

theorem ends_equal (shared : Sharing) (x y : Value) :
    Ends (fun _ => True) (ComesFrom root limit) (Run.equal shared x y) := by
  rw [Run.equal]
  split
  · exact ends_pure trivial
  · exact ends_fail .exhausted

theorem ends_apply (shared : Sharing) (c : Comparator) (x y : Value) :
    Ends (RefersTo root) (ComesFrom root limit) (c.apply shared x y) := by
  unfold Comparator.apply
  split
  · exact ends_bind (ends_equal shared x y) fun _ _ => ends_pure .bool
  · exact ends_bind (ends_equal shared x y) fun _ _ => ends_pure .bool
  · exact ends_pure .bool
  · exact ends_pure .bool
  · exact ends_pure .bool
  · exact ends_pure .bool
  · exact ends_pure .null

theorem ends_atom {a : Atom} {o : Nat} (h : .atom a o ∈ root.walk) {v : Value}
    (hv : RefersTo root v) : Ends (RefersTo root) (ComesFrom root limit) (a.eval v o) := by
  cases a with
  | identity | current => exact ends_pure hv
  | field name => exact ends_pure (hv.getField name)
  | index i => exact ends_pure (hv.getIndex i)
  | slice s =>
    unfold Atom.eval
    dsimp only
    split
    · next hs => exact ends_fail (.slice h hs)
    · exact ends_pure (hv.slice s)
  | literal j => exact ends_pure (.ofJson j)

theorem ends_project {f : Value → Run Value} {xs : List Value}
    (hf : ∀ x ∈ xs, Ends (RefersTo root) (ComesFrom root limit) (f x)) :
    Ends (RefersTo root) (ComesFrom root limit) (project f xs) := by
  refine ends_bind (ends_mapM hf) ?_
  intro ys hys
  refine ends_pure (.arr ?_)
  intro y hy
  exact hys y (List.mem_of_mem_filter hy)

theorem ends_keepTruthy {f : Value → Run Value} {xs : List Value}
    (hf : ∀ x ∈ xs, Ends (RefersTo root) (ComesFrom root limit) (f x)) :
    Ends (· ⊆ xs) (ComesFrom root limit) (keepTruthy f xs) := by
  induction xs with
  | nil => exact ends_pure (List.Subset.refl _)
  | cons x xs ih =>
    obtain ⟨hx, hxs⟩ := List.forall_mem_cons.mp hf
    refine ends_bind hx ?_
    intro y _
    refine ends_bind (ih hxs) ?_
    intro ys hys
    refine ends_pure ?_
    split
    · exact List.cons_subset_cons x hys
    · exact List.subset_cons_of_subset x hys

theorem ends_mapPairs {f : Expr → Run Value} {ps : List (Text × Expr)}
    (hf : ∀ p ∈ ps, Ends (RefersTo root) (ComesFrom root limit) (f p.2)) :
    Ends (fun es => ∀ entry ∈ es, RefersTo root entry.2) (ComesFrom root limit)
      (mapPairs f ps) := by
  induction ps with
  | nil => exact ends_pure nofun
  | cons p ps ih =>
    obtain ⟨k, e⟩ := p
    obtain ⟨he, hps⟩ := List.forall_mem_cons.mp hf
    refine ends_bind he ?_
    intro x hx
    refine ends_bind (ih hps) ?_
    intro es hes
    exact ends_pure (List.forall_mem_cons.mpr ⟨hx, hes⟩)

/-- Evaluations and calls within a number of steps fail only at nodes of a tree. -/
structure EndsAt (root : Expr) (env : Env) (steps : Nat) : Prop where
  eval : ∀ ⦃d e v⦄, e ∈ root.walk → RefersTo root v →
    Ends (RefersTo root) (ComesFrom root env.limit) (eval env steps d e v)
  invoke : ∀ ⦃d name args xs⦄ ⦃o : Nat⦄, .call name args o ∈ root.walk →
    (∀ x ∈ xs, RefersTo root x) →
    Ends (RefersTo root) (ComesFrom root env.limit) (invoke env steps d o name xs)

variable {env : Env} {steps d o : Nat} {v : Value} (ih : EndsAt root env steps)
include ih

theorem invoke_ends (hs : env.registry.Sound) {name : Text} {args : List Expr} {xs : List Value}
    (h : .call name args o ∈ root.walk) (hx : ∀ x ∈ xs, RefersTo root x) :
    Ends (RefersTo root) (ComesFrom root env.limit) (invoke env (steps + 1) d o name xs) := by
  rw [invoke]
  cases hf : env.registry.get? name with
  | none => exact ends_fail (.call h rfl)
  | some f =>
    dsimp only
    cases hc : f.signature.check name xs with
    | error p => exact ends_fail (.call h (Signature.check_blames hc))
    | ok =>
      refine hs hf ?_ hx hc
      constructor
      · exact ⟨args, o, h, rfl⟩
      · intro e x he hx
        exact ih.eval he hx

theorem eval_succ_ends {e : Expr} (he : e ∈ root.walk) (hv : RefersTo root v) :
    Ends (RefersTo root) (ComesFrom root env.limit) (eval env (steps + 1) d e v) := by
  -- The children of a node of the tree are nodes of the tree, so all steps but this one are good.
  have sub : ∀ {c x d}, c ∈ e.children → RefersTo root x →
      Ends (RefersTo root) (ComesFrom root env.limit) (eval env steps d c x) :=
    fun hc hx => ih.eval (Expr.mem_walk_of_mem_children he hc) hx
  have project : ∀ {c d xs}, c ∈ e.children → (∀ x ∈ xs, RefersTo root x) →
      Ends (RefersTo root) (ComesFrom root env.limit) (project (eval env steps d c) xs) :=
    fun hc hxs => ends_project fun x hx => sub hc (hxs x hx)
  unfold eval
  refine ends_guard (.limit he) ?_
  cases e with
  | atom a o => exact ends_atom he hv
  | unary op a o =>
    have ha : a ∈ (Expr.unary op a o).children := List.mem_singleton_self a
    cases op with
    | flatten =>
      refine ends_bind (sub ha hv) ?_
      intro x hx
      cases hx with
      | arr hi => exact ends_pure (.arr (RefersTo.flattenItems hi))
      | null | bool | num | str | obj | ref => exact ends_pure .null
    | not => exact ends_bind (sub ha hv) fun _ _ => ends_pure .bool
    | reference => exact ends_pure (.ref (Expr.mem_walk_of_mem_children he ha) hv)
  | binary op a b o =>
    have ha : a ∈ (Expr.binary op a b o).children := List.mem_cons_self
    have hb : b ∈ (Expr.binary op a b o).children := List.mem_cons_of_mem _ List.mem_cons_self
    cases op with
    | eachItem =>
      refine ends_bind (sub ha hv) ?_
      intro x hx
      cases hx with
      | arr hi => exact project hb hi
      | null | bool | num | str | obj | ref => exact ends_pure .null
    | eachValue =>
      refine ends_bind (sub ha hv) ?_
      intro x hx
      cases hx with
      | obj he => exact project hb (RefersTo.values he)
      | null | bool | num | str | arr | ref => exact ends_pure .null
    | pipe | step => exact ends_bind (sub ha hv) fun _ hx => sub hb hx
    | and =>
      refine ends_bind (sub ha hv) ?_
      intro x hx
      split
      · exact sub hb hv
      · exact ends_pure hx
    | or =>
      refine ends_bind (sub ha hv) ?_
      intro x hx
      split
      · exact ends_pure hx
      · exact sub hb hv
    | compare c =>
      refine ends_bind (sub ha hv) fun x _ => ends_bind (sub hb hv) fun y _ => ?_
      exact ends_apply env.shared c x y
  | filter a p b o =>
    have ha : a ∈ (Expr.filter a p b o).children := by simp [Expr.children]
    have hp : p ∈ (Expr.filter a p b o).children := by simp [Expr.children]
    have hb : b ∈ (Expr.filter a p b o).children := by simp [Expr.children]
    refine ends_bind (sub ha hv) ?_
    intro x hx
    cases hx with
    | arr hi =>
      refine ends_bind (ends_keepTruthy fun x hx => sub hp (hi x hx)) ?_
      intro kept hk
      exact project hb fun x hx => hi x (hk hx)
    | null | bool | num | str | obj | ref => exact ends_pure .null
  | list es o =>
    dsimp only
    split
    · exact ends_pure .null
    · exact ends_bind (ends_mapM fun e he => sub he hv) fun _ hxs => ends_pure (.arr hxs)
  | hash ps o =>
    dsimp only
    split
    · exact ends_pure .null
    · refine ends_bind (ends_mapPairs fun p hp => sub (List.mem_map_of_mem hp) hv) ?_
      intro es hes
      exact ends_pure (.obj (Entries.forall_update (List.forall_mem_nil _) hes))
  | call name args o =>
    refine ends_bind (ends_mapM fun e he => sub he hv) ?_
    intro xs hxs
    exact ends_afterCall (ih.invoke he hxs)

end

/-- Evaluations of the nodes of a tree, on values that refer to the tree, only fail at nodes of
the tree. -/
theorem eval_ends {root : Expr} {env : Env} (hs : env.registry.Sound) (steps : Nat) :
    EndsAt root env steps := by
  induction steps with
  | zero =>
    constructor
    · intro d e v _ _
      rw [eval]
      exact ends_fail .exhausted
    · intro d name args xs o _ _
      rw [invoke]
      exact ends_fail .exhausted
  | succ steps ih =>
    constructor
    · intro d e v he hv
      exact eval_succ_ends ih he hv
    · intro d name args xs o h hx
      exact invoke_ends ih hs h hx

end JsonQuery
