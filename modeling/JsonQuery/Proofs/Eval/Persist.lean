/-
Results persist under a higher limit.

An evaluation that does not reach the limit goes the very same way with more steps, under a higher
limit and also less deep: a guard that did not stop it does not stop it then.  Functions of an
embedding program may tell the limit and the depth, so of them it is asked that they do not.

* `Registry.Persists` — functions whose results persist under a higher limit;
* `eval_persists` — the evaluation of every expression persists, if what functions do persists;
* `eval_higher`, `eval_shallower` — under a higher limit, and less deep;
* `Registry.standard_persists` — the standard functions do not tell the limit.
-/
import JsonQuery.Proofs.Eval.Matches
import JsonQuery.Proofs.Eval.Step
import JsonQuery.Proofs.Function.Keep

namespace JsonQuery

open Run

/-- Being the same value is a likeness. -/
def Likeness.identical : Likeness where
  exact := True
  body := Eq
  value := Eq
  entries := Eq
  built := by
    intro x y
    constructor
    · rintro rfl
      cases x with
      | null => exact .null
      | bool => exact .bool
      | num => exact .num rfl fun _ => rfl
      | str => exact .str
      | arr => exact .arr (List.forall₂_same.mpr fun _ _ => rfl)
      | obj => exact .obj rfl
      | ref => exact .ref rfl rfl
    · intro h
      cases h with
      | null | bool | str => rfl
      | num _ h => rw [h trivial]
      | arr h =>
        rw [List.forall₂_eq_eq_eq] at h
        rw [h]
      | obj h => rw [h]
      | ref hb hx => rw [hb, hx]
  get? h k := by
    subst h
    cases Entries.get? _ k with
    | none => exact .none
    | some => exact .some rfl
  length_eq h := congrArg List.length h
  nil := rfl
  insert h hx k := by rw [h, hx]
  update h h' := by rw [h, h']

theorem Likeness.identical_compares {R : Relator} {shared shared' : Sharing}
    (h : shared = shared') : Likeness.identical.Compares R shared shared' := by
  refine compares_of_equal?_eq ?_
  rintro x _ y _ rfl rfl
  rw [h]

theorem Likeness.identical_ordered : Likeness.identical.Ordered where
  exact := trivial
  entries h := by
    subst h
    exact List.forall₂_same.mpr fun _ _ => ⟨rfl, rfl⟩
  render_eq h := by rw [h]

/-! ### Functions that do not tell the limit -/

/-- An evaluation goes the same way as another, unless it reaches the limit. -/
abbrev Run.Persists {α : Type} (x y : Run α) : Prop :=
  InStep Failure.IsLimit Eq x y

/-- The circumstances of a call under two limits, in which evaluations and calls persist. -/
structure Call.Persists (c c' : Call) : Prop where
  source : c.source = c'.source
  depth : c.depth = c'.depth
  offset : c.offset = c'.offset
  shared : c.shared = c'.shared
  evaluate : ∀ e x, (c.evaluate e x).Persists (c'.evaluate e x)
  invoke : ∀ o name xs, (c.invoke o name xs).Persists (c'.invoke o name xs)

/-- A function that tells the limit only by reaching it. -/
def Function.Persists (f : Function) : Prop :=
  ∀ ⦃c c'⦄, Call.Persists c c' → ∀ xs, (f.body c xs).Persists (f.body c' xs)

/-- No function of a registry tells the limit but by reaching it. -/
def Registry.Persists (r : Registry) : Prop :=
  ∀ ⦃name f⦄, r.get? name = some f → f.Persists

/-- The standard functions ask of the circumstances of a call only its place and what expressions
give. -/
theorem Registry.standard_body_persists {name : Text} {f : Function}
    (h : Registry.standard.get? name = some f) {c c' : Call} (ho : c.offset = c'.offset)
    (hs : c.shared = c'.shared)
    (he : ∀ e x, (c.evaluate e x).Persists (c'.evaluate e x)) (xs : List Value) :
    (f.body c xs).Persists (f.body c' xs) := by
  have hkeeps : f.Keeps (inStep Failure.IsLimit) .identical :=
    standard_keeps (fun _ => Likeness.identical_ordered) h
  refine hkeeps ⟨ho, Likeness.identical_compares hs, ?_⟩ (List.forall₂_same.mpr fun _ _ => rfl)
  rintro e _ x _ rfl rfl
  exact he e x

theorem Registry.standard_persists : Registry.standard.Persists :=
  fun _ _ h _ _ hc xs => standard_body_persists h hc.offset hc.shared hc.evaluate xs

section
variable {α β : Type}

theorem persists_self (x : Run α) : x.Persists x := by
  refine .inr ⟨rfl, ?_⟩
  cases x.outcome with
  | ok => exact .ok rfl
  | error f => exact .error f

theorem persists_bind {x y : Run α} {f g : α → Run β} (h : x.Persists y)
    (hf : ∀ a, (f a).Persists (g a)) : (x >>= f).Persists (y >>= g) := by
  refine inStep_bind h ?_
  rintro a _ rfl
  exact hf a

end

/-- A function of an embedding program does not tell the limit if its body does not. -/
theorem Function.ofHost_persists {signature : Signature} {body : Call → List Value → Run Host}
    (h : ∀ ⦃c c'⦄, Call.Persists c c' → ∀ xs, (body c xs).Persists (body c' xs)) :
    (Function.ofHost signature body).Persists :=
  fun _ _ hc xs => persists_bind (h hc xs) fun result => persists_self result.result

/-- A registration of a function that does not tell the limit. -/
theorem Registry.Persists.insert {r : Registry} (hr : r.Persists) (name : Text) {f : Function}
    (hf : f.Persists) (frozen : Bool) :
    Registry.Persists ⟨r.functions.insert name f, frozen⟩ := by
  intro name' f' h
  rw [Registry.get?, Entries.get?_insert] at h
  split at h
  · cases h
    exact hf
  · exact hr h

/-! ### Evaluations -/

/-- The evaluations and calls in an environment persist in another one, at depths that are
related. -/
structure PersistsAt (depths : Nat → Nat → Prop) (env env' : Env) (steps steps' : Nat) : Prop where
  eval : ∀ ⦃d d'⦄, depths d d' → ∀ e v, (eval env steps d e v).Persists (eval env' steps' d' e v)
  invoke : ∀ ⦃d d'⦄, depths d d' → ∀ o name xs,
    (invoke env steps d o name xs).Persists (invoke env' steps' d' o name xs)

/-- What the functions of an environment do persists in another one, if evaluations and calls
persist. -/
def BodiesPersist (depths : Nat → Nat → Prop) (env env' : Env) : Prop :=
  ∀ ⦃name f⦄, env.registry.get? name = some f →
    ∀ ⦃steps steps' d d'⦄, PersistsAt depths env env' steps steps' → depths d d' → ∀ o xs,
      Run.Persists
        (f.body ⟨env.source, d, env.limit, o, eval env steps d, invoke env steps d,
          env.shared⟩ xs)
        (f.body ⟨env'.source, d', env'.limit, o, eval env' steps' d', invoke env' steps' d',
          env'.shared⟩ xs)

/-- Related depths stay related one node deeper, and the room below the limit does not shrink. -/
structure Roomier (depths : Nat → Nat → Prop) (limit limit' : Int) : Prop where
  deeper : ∀ ⦃d d'⦄, depths d d' → depths (d + 1) (d' + 1)
  room : ∀ ⦃d d'⦄, depths d d' → limit + d' ≤ limit' + d

section
variable {depths : Nat → Nat → Prop} {env env' : Env} {steps steps' d d' : Nat}

theorem guards_of_le (hl : env.limit + d' ≤ env'.limit + d) (o : Int) :
    (inStep Failure.IsLimit).Guards Eq env env' d d' o o := by
  intro x y h
  rw [Env.guard, Env.guard]
  split
  · exact .inl ⟨_, rfl, trivial⟩
  · next hd =>
    rw [if_neg (by omega)]
    exact h

variable (ih : PersistsAt depths env env' steps steps')
include ih

theorem invoke_persists (hr : env.registry = env'.registry) (hp : BodiesPersist depths env env')
    (hd : depths d d') (o : Int) (name : Text) (xs : List Value) :
    (invoke env (steps + 1) d o name xs).Persists (invoke env' (steps' + 1) d' o name xs) := by
  refine rel_invoke (R := inStep Failure.IsLimit) (L := .identical) (A := .identical) hr rfl
    (List.forall₂_same.mpr fun _ _ => rfl) ?_
  intro f hf
  exact hp hf ih hd o xs

theorem eval_succ_persists (hl : Roomier depths env.limit env'.limit)
    (hshared : env.shared = env'.shared) (hd : depths d d') (e : Expr) (v : Value) :
    (eval env (steps + 1) d e v).Persists (eval env' (steps' + 1) d' e v) := by
  let R := inStep Failure.IsLimit
  have hsub : ∀ ⦃c c' x x'⦄, c = c' → x = x' →
      R.rel Eq (eval env steps (d + 1) c x) (eval env' steps' (d' + 1) c' x') := by
    rintro c _ x _ rfl rfl
    exact ih.eval (hl.deeper hd) c x
  have hg : ∀ o, R.Guards Eq env env' d d' o o := guards_of_le (hl.room hd)
  cases e with
  | call name args o =>
    refine rel_call (R := R) (L := .identical) rfl (hg _) (List.forall₂_same.mpr fun _ _ => rfl)
      (fun _ _ hc => hsub hc rfl) ?_
    intro xs xs' hx
    rw [List.forall₂_eq_eq_eq] at hx
    subst hx
    exact ih.invoke (hl.deeper hd) o name xs
  | atom | unary | binary | filter | list | hash =>
    refine Expr.Paired.rel_eval (L := .identical) hsub ?_ (Likeness.identical_compares hshared)
      (hg _) rfl
    exact Expr.paired_self nofun (fun _ => rfl) (fun _ _ => rfl) (fun _ => rfl) (fun _ => rfl)
      fun _ => Likeness.identical_ordered

end

/-- Evaluations persist with more steps and where there is no less room below the limit, if
functions do. -/
theorem eval_persists {depths : Nat → Nat → Prop} {env env' : Env}
    (hr : env.registry = env'.registry) (hp : BodiesPersist depths env env')
    (hl : Roomier depths env.limit env'.limit) (hshared : env.shared = env'.shared)
    {steps steps' : Nat} (hn : steps ≤ steps') : PersistsAt depths env env' steps steps' := by
  induction steps generalizing steps' with
  | zero =>
    constructor
    · intro d d' _ e v
      rw [eval]
      exact .inl ⟨_, rfl, trivial⟩
    · intro d d' _ o name xs
      rw [invoke]
      exact .inl ⟨_, rfl, trivial⟩
  | succ steps ih =>
    obtain ⟨steps', rfl⟩ := Nat.exists_eq_add_of_lt hn
    have ih := ih (Nat.le_add_right steps steps')
    constructor
    · intro d d' hd e v
      exact eval_succ_persists ih hl hshared hd e v
    · intro d d' hd o name xs
      exact invoke_persists ih hr hp hd o name xs

/-- Evaluations persist under a higher limit. -/
theorem eval_higher {env env' : Env} (hs : env.source = env'.source)
    (hr : env.registry = env'.registry) (hp : env.registry.Persists) (hl : env.limit ≤ env'.limit)
    (hshared : env.shared = env'.shared) {steps steps' : Nat} (hn : steps ≤ steps') :
    PersistsAt Eq env env' steps steps' := by
  refine eval_persists hr ?_ ⟨?_, ?_⟩ hshared hn
  · rintro name f hf steps steps' d _ h rfl o xs
    refine hp hf ?_ xs
    exact ⟨hs, rfl, rfl, hshared, h.eval rfl, h.invoke rfl⟩
  · rintro d _ rfl
    rfl
  · rintro d _ rfl
    exact Int.add_le_add_right hl d

/-- Evaluations by the standard functions persist less deep. -/
theorem eval_shallower {env : Env}
    (hr : ∀ name, env.registry.get? name = Registry.standard.get? name) {steps steps' : Nat}
    (hn : steps ≤ steps') : PersistsAt (fun d d' => d' ≤ d) env env steps steps' := by
  refine eval_persists rfl ?_ ⟨?_, ?_⟩ rfl hn
  · intro name f hf steps steps' d d' h hd o xs
    rw [hr] at hf
    refine Registry.standard_body_persists hf ?_ ?_ ?_ xs
    · rfl
    · rfl
    · exact h.eval hd
  · intro d d' hd
    exact Nat.succ_le_succ hd
  · intro d d' hd
    exact Int.add_le_add_left (Int.ofNat_le.mpr hd) env.limit

end JsonQuery
