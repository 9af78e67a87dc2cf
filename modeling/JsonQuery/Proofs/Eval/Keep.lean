/-
Evaluations keep likenesses.

Two nodes that are built alike give like values on like values, if their operands do.  This is the
step of every induction that compares two evaluations; what is left to each of them is which nodes
are built alike, how the limit is guarded and which functions may be called.

* `Env.guard`, `eval_call` and its siblings — a node is evaluated behind the guard of the limit;
* `Expr.Paired`, `Expr.paired_self` — two nodes other than calls are built alike;
* `Expr.Paired.rel_eval` — the evaluations of such nodes are related;
* `rel_call`, `rel_invoke` — calls of functions.
-/
import JsonQuery.Proofs.Eval.Likeness

namespace JsonQuery

open Likeness

/-- An evaluation of a node at a depth, unless it is too deep. -/
def Env.guard (env : Env) (depth : Nat) (offset : Int) (x : Run Value) : Run Value :=
  if env.limit < depth + 1 then Run.fail (.problem (.recursionLimit env.limit) offset) else x

/-! ### Nodes behind their guards -/

section
variable (env : Env) (steps depth : Nat) (a p b : Expr) (v : Value) (o : Nat)

theorem eval_eachItem : eval env (steps + 1) depth (.binary .eachItem a b o) v =
    env.guard depth o (eval env steps (depth + 1) a v >>= fun x =>
      match x with
      | .arr items => project (eval env steps (depth + 1) b) items
      | _ => Pure.pure .null) := by
  rw [eval]
  rfl

theorem eval_eachValue : eval env (steps + 1) depth (.binary .eachValue a b o) v =
    env.guard depth o (eval env steps (depth + 1) a v >>= fun x =>
      match x with
      | .obj entries => project (eval env steps (depth + 1) b) (entries.map Prod.snd)
      | _ => Pure.pure .null) := by
  rw [eval]
  rfl

theorem eval_pipe : eval env (steps + 1) depth (.binary .pipe a b o) v =
    env.guard depth o (eval env steps (depth + 1) a v >>= eval env steps (depth + 1) b) := by
  rw [eval]
  rfl

theorem eval_filter : eval env (steps + 1) depth (.filter a p b o) v =
    env.guard depth o (eval env steps (depth + 1) a v >>= fun x =>
      match x with
      | .arr items =>
        keepTruthy (eval env steps (depth + 1) p) items >>= project (eval env steps (depth + 1) b)
      | _ => Pure.pure .null) := by
  rw [eval]
  rfl

theorem eval_call (name : Text) (args : List Expr) :
    eval env (steps + 1) depth (.call name args o) v =
      env.guard depth o ((args.mapM fun e => eval env steps (depth + 1) e v) >>= fun xs =>
        (invoke env steps (depth + 1) o name xs).afterCall o) := by
  rw [eval]
  rfl

theorem eval_hash (ps : List (Text × Expr)) : eval env (steps + 1) depth (.hash ps o) v =
    env.guard depth o (if v.isNull then Pure.pure .null
      else mapPairs (fun e => eval env steps (depth + 1) e v) ps >>= fun xs =>
        Pure.pure (.obj (Entries.ofList xs))) := by
  rw [eval]
  rfl

end

/-! ### Nodes that are built alike -/

/-- Evaluations stay related behind the guards of two nodes. -/
def Run.Relator.Guards (R : Run.Relator) (near : Value → Value → Prop) (env env' : Env)
    (d d' : Nat) (o o' : Int) : Prop :=
  ∀ ⦃x y⦄, R.rel near x y → R.rel near (env.guard d o x) (env'.guard d' o' y)

/-- Two nodes other than calls are built alike, from operands that are related. -/
inductive Expr.Paired (R : Run.Relator) (L : Likeness) (near : Expr → Expr → Prop) :
    Expr → Expr → Prop
  | atom {a} {o o' : Nat} : R.place o o' →
    (∀ j, a = .literal j → L.value (Data.ofJson j) (Data.ofJson j)) →
    Paired R L near (.atom a o) (.atom a o')
  | unary {op a a' o o'} : op ≠ .reference → near a a' →
    Paired R L near (.unary op a o) (.unary op a' o')
  | reference {a a' o o'} : L.body a a' →
    Paired R L near (.unary .reference a o) (.unary .reference a' o')
  | binary {op a a' b b' o o'} : (op = .eachValue → L.Ordered) → near a a' → near b b' →
    Paired R L near (.binary op a b o) (.binary op a' b' o')
  | filter {a a' p p' b b' o o'} : near a a' → near p p' → near b b' →
    Paired R L near (.filter a p b o) (.filter a' p' b' o')
  | list {es es' o o'} : List.Forall₂ near es es' → Paired R L near (.list es o) (.list es' o')
  | hash {ps ps' o o'} : List.Forall₂ (Entries.Near near) ps ps' →
    Paired R L near (.hash ps o) (.hash ps' o')

/-- A node other than a call is built like itself, if what stands in it is like itself. -/
theorem Expr.paired_self {R : Run.Relator} {L : Likeness} {near : Expr → Expr → Prop} {e : Expr}
    (hcall : ∀ {name args o}, e ≠ .call name args o) (hplace : ∀ o, R.place o o)
    (hnear : ∀ c ∈ e.children, near c c)
    (hbody : ∀ {b o}, e = .unary .reference b o → L.body b b)
    (hliteral : ∀ {j o}, e = .atom (.literal j) o → L.value (Data.ofJson j) (Data.ofJson j))
    (hvalues : ∀ {a b o}, e = .binary .eachValue a b o → L.Ordered) : Paired R L near e e := by
  cases e with
  | atom a o =>
    refine .atom (hplace o) ?_
    rintro j rfl
    exact hliteral rfl
  | unary op a o =>
    by_cases hop : op = .reference
    · subst hop
      exact .reference (hbody rfl)
    · exact .unary hop (hnear a (by simp [children]))
  | binary op a b o =>
    refine .binary ?_ (hnear a (by simp [children])) (hnear b (by simp [children]))
    rintro rfl
    exact hvalues rfl
  | filter a p b o =>
    exact .filter (hnear a (by simp [children])) (hnear p (by simp [children]))
      (hnear b (by simp [children]))
  | list es o => exact .list (List.forall₂_same.mpr hnear)
  | hash ps o =>
    refine .hash (List.forall₂_same.mpr ?_)
    intro p hp
    exact ⟨rfl, hnear p.2 (List.mem_map_of_mem hp)⟩
  | call => exact absurd rfl hcall

section
variable {R : Run.Relator} {L : Likeness} {near : Expr → Expr → Prop} {env env' : Env}
  {steps steps' d d' : Nat} {v v' : Value}

section
variable (hsub : ∀ ⦃c c' x x'⦄, near c c' → L.value x x' →
  R.rel L.value (eval env steps (d + 1) c x) (eval env' steps' (d' + 1) c' x'))
include hsub

theorem rel_eval_unary {op : UnaryOp} {a a' : Expr} {o o' : Nat} (hop : op ≠ .reference)
    (hg : R.Guards L.value env env' d d' o o') (ha : near a a') (hv : L.value v v') :
    R.rel L.value (eval env (steps + 1) d (.unary op a o) v)
      (eval env' (steps' + 1) d' (.unary op a' o') v') := by
  unfold eval
  refine hg ?_
  cases op with
  | flatten =>
    refine R.bind (hsub ha hv) ?_
    intro x x' hx
    cases L.built.mp hx with
    | arr hi => exact R.pure (value_arr (forall₂_flattenItems hi))
    | null | bool | num | str | obj | ref => exact R.pure value_null
  | not =>
    refine R.bind (hsub ha hv) ?_
    intro x x' hx
    rw [isTruthy_eq hx]
    exact R.pure (value_bool _)
  | reference => exact absurd rfl hop

theorem rel_eval_binary (hcmp : L.Compares R env.shared env'.shared) {op : BinaryOp}
    {a a' b b' : Expr} {o o' : Nat} (hop : op = .eachValue → L.Ordered)
    (hg : R.Guards L.value env env' d d' o o') (ha : near a a') (hb : near b b')
    (hv : L.value v v') :
    R.rel L.value (eval env (steps + 1) d (.binary op a b o) v)
      (eval env' (steps' + 1) d' (.binary op a' b' o') v') := by
  unfold eval
  refine hg ?_
  cases op with
  | eachItem =>
    refine R.bind (hsub ha hv) ?_
    intro x x' hx
    cases L.built.mp hx with
    | arr hi => exact rel_project (fun _ _ hy => hsub hb hy) hi
    | null | bool | num | str | obj | ref => exact R.pure value_null
  | eachValue =>
    refine R.bind (hsub ha hv) ?_
    intro x x' hx
    cases L.built.mp hx with
    | obj he => exact rel_project (fun _ _ hy => hsub hb hy) ((hop rfl).values he)
    | null | bool | num | str | arr | ref => exact R.pure value_null
  | pipe | step => exact R.bind (hsub ha hv) fun _ _ hx => hsub hb hx
  | and =>
    refine R.bind (hsub ha hv) ?_
    intro x x' hx
    rw [isTruthy_eq hx]
    split
    · exact hsub hb hv
    · exact R.pure hx
  | or =>
    refine R.bind (hsub ha hv) ?_
    intro x x' hx
    rw [isTruthy_eq hx]
    split
    · exact R.pure hx
    · exact hsub hb hv
  | compare c =>
    refine R.bind (hsub ha hv) ?_
    intro x x' hx
    refine R.bind (hsub hb hv) ?_
    intro y y' hy
    exact rel_apply hcmp c hx hy

theorem rel_eval_filter {a a' p p' b b' : Expr} {o o' : Nat}
    (hg : R.Guards L.value env env' d d' o o') (ha : near a a') (hp : near p p') (hb : near b b')
    (hv : L.value v v') :
    R.rel L.value (eval env (steps + 1) d (.filter a p b o) v)
      (eval env' (steps' + 1) d' (.filter a' p' b' o') v') := by
  unfold eval
  refine hg (R.bind (hsub ha hv) ?_)
  intro x x' hx
  cases L.built.mp hx with
  | arr hi =>
    refine R.bind (rel_keepTruthy (fun _ _ hy => hsub hp hy) hi) ?_
    intro ys ys' hys
    exact rel_project (fun _ _ hy => hsub hb hy) hys
  | null | bool | num | str | obj | ref => exact R.pure value_null

theorem rel_eval_list {es es' : List Expr} {o o' : Nat} (hg : R.Guards L.value env env' d d' o o')
    (he : List.Forall₂ near es es') (hv : L.value v v') :
    R.rel L.value (eval env (steps + 1) d (.list es o) v)
      (eval env' (steps' + 1) d' (.list es' o') v') := by
  unfold eval
  refine hg ?_
  dsimp only
  rw [isNull_eq hv]
  split
  · exact R.pure value_null
  · refine R.bind (R.mapM he fun _ _ hc => hsub hc hv) ?_
    intro xs ys h
    exact R.pure (value_arr h)

theorem rel_eval_hash {ps ps' : List (Text × Expr)} {o o' : Nat}
    (hg : R.Guards L.value env env' d d' o o') (hp : List.Forall₂ (Entries.Near near) ps ps')
    (hv : L.value v v') :
    R.rel L.value (eval env (steps + 1) d (.hash ps o) v)
      (eval env' (steps' + 1) d' (.hash ps' o') v') := by
  unfold eval
  refine hg ?_
  dsimp only
  rw [isNull_eq hv]
  split
  · exact R.pure value_null
  · refine R.bind (rel_mapPairs (fun _ _ hc => hsub hc hv) hp) ?_
    intro es fs h
    exact R.pure (value_obj (entries_ofList h))

/-- Nodes that are built alike give like values on like values, if their operands do. -/
theorem Expr.Paired.rel_eval {e e' : Expr} (h : Paired R L near e e')
    (hcmp : L.Compares R env.shared env'.shared)
    (hg : R.Guards L.value env env' d d' e.offset e'.offset) (hv : L.value v v') :
    R.rel L.value (eval env (steps + 1) d e v) (eval env' (steps' + 1) d' e' v') := by
  cases h with
  | atom ho hlit =>
    unfold eval
    exact hg (rel_atom ho hlit hv)
  | unary hop ha => exact rel_eval_unary hsub hop hg ha hv
  | reference hbody =>
    unfold eval
    exact hg (R.pure (L.built.mpr (.ref hbody hv)))
  | binary hop ha hb => exact rel_eval_binary hsub hcmp hop hg ha hb hv
  | filter ha hp hb => exact rel_eval_filter hsub hg ha hp hb hv
  | list he => exact rel_eval_list hsub hg he hv
  | hash hp => exact rel_eval_hash hsub hg hp hv

end

/-! ### Calls -/

/-- Two calls go the same way if their arguments do and what is called does on them. -/
theorem rel_call {arg : Value → Value → Prop} {name : Text} {args args' : List Expr} {o o' : Nat}
    (ho : R.place o o') (hg : R.Guards L.value env env' d d' o o')
    (hargs : List.Forall₂ near args args')
    (heval : ∀ ⦃c c'⦄, near c c' →
      R.rel arg (eval env steps (d + 1) c v) (eval env' steps' (d' + 1) c' v'))
    (hinvoke : ∀ ⦃xs xs'⦄, List.Forall₂ arg xs xs' → R.rel L.value
      (invoke env steps (d + 1) o name xs) (invoke env' steps' (d' + 1) o' name xs')) :
    R.rel L.value (eval env (steps + 1) d (.call name args o) v)
      (eval env' (steps' + 1) d' (.call name args' o') v') := by
  unfold eval
  refine hg (R.bind (R.mapM hargs heval) ?_)
  intro xs xs' hx
  exact R.afterCall ho (hinvoke hx)

/-- A function called by its name goes the same way as its body. -/
theorem rel_invoke {o o' : Int} {name : Text} {xs xs' : List Value} {A : Likeness}
    (hr : env.registry = env'.registry) (ho : R.place o o') (hx : List.Forall₂ A.value xs xs')
    (hf : ∀ ⦃f⦄, env.registry.get? name = some f → R.rel L.value
      (f.body ⟨env.source, d, env.limit, o, eval env steps d, invoke env steps d, env.shared⟩ xs)
      (f.body ⟨env'.source, d', env'.limit, o', eval env' steps' d', invoke env' steps' d',
        env'.shared⟩ xs')) :
    R.rel L.value (invoke env (steps + 1) d o name xs)
      (invoke env' (steps' + 1) d' o' name xs') := by
  rw [invoke, invoke, ← hr]
  cases hget : env.registry.get? name with
  | none =>
    refine R.fail (.problem ?_ ho)
    rintro l ⟨⟩
  | some f =>
    dsimp only
    cases hc : f.signature.check name xs with
    | error p =>
      rw [← check_eq f.signature name hx, hc]
      exact R.fail (.problem (check_ne_recursionLimit hc) ho)
    | ok =>
      rw [← check_eq f.signature name hx, hc]
      exact hf hget

end
end JsonQuery
