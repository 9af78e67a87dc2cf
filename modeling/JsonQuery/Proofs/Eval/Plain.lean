/-
Evaluations that give plain values.

A value is plain if it is a document: no reference in it and no key twice in an object.
Expressions make references, but where each of them is passed to a function that evaluates it, none
gets into a result: no such function hands on its reference.  On a plain value an expression of
this kind gives a plain value again; and as a reference is then evaluated less deep in the tree
than it stands there, only an expression that is higher than the limit reaches it.

* `Value.Plain` — a value is a document;
* `Expr.PassesReferences` — every reference in a tree is passed to a function that evaluates it;
* `Run.together` — a way to relate an evaluation to itself, by what is said of its result;
* `eval_plain` — such a tree gives plain values.
-/
import JsonQuery.Proofs.Eval.Keep
import JsonQuery.Proofs.Eval.Origin
import JsonQuery.Proofs.Eval.Persist
import JsonQuery.Proofs.Function.Keep
import JsonQuery.Proofs.Grammar.Literals

namespace JsonQuery

open Run

/-! ### Plain values -/

/-- A value without references, in which no object has a key twice. -/
def Value.Plain (x : Value) : Prop :=
  x.hasRef = false ∧ x.DistinctKeys

namespace Value

theorem plain_arr {xs : List Value} : Plain (.arr xs) ↔ ∀ x ∈ xs, Plain x := by
  rw [Plain, Data.hasRef_arr, List.any_eq_false, Data.DistinctKeys, Data.distinctKeysItems_iff]
  simp only [Bool.not_eq_true, ← forall_and, Plain]

theorem plain_obj {es : Entries Value} :
    Plain (.obj es) ↔ (Entries.keys es).Nodup ∧ ∀ entry ∈ es, Plain entry.2 := by
  rw [Plain, Data.hasRef_obj, List.any_eq_false, Data.DistinctKeys, Data.distinctKeysEntries_iff]
  simp only [Bool.not_eq_true, Plain]
  constructor
  · rintro ⟨hr, hk, hd⟩
    exact ⟨hk, fun entry hm => ⟨hr entry hm, hd entry hm⟩⟩
  · rintro ⟨hk, h⟩
    exact ⟨fun entry hm => (h entry hm).1, hk, fun entry hm => (h entry hm).2⟩

theorem not_plain_ref {b : Expr} {x : Value} : ¬ Plain (.ref b x) := by
  rintro ⟨h, -⟩
  cases h

theorem plain_ofJson {j : Json} (h : j.DistinctKeys) : Plain (Data.ofJson j) :=
  ⟨Data.hasRef_ofJson j, Data.distinctKeys_mapRef j |>.mpr h⟩

end Value

open Value

/-- Being the same plain value is a likeness. -/
def Likeness.plain : Likeness where
  exact := True
  body _ _ := False
  value x y := Plain x ∧ x = y
  entries es fs := Plain (.obj es) ∧ es = fs
  built := by
    intro x y
    constructor
    · rintro ⟨h, rfl⟩
      cases x with
      | null => exact .null
      | bool => exact .bool
      | num => exact .num rfl fun _ => rfl
      | str => exact .str
      | arr => exact .arr (List.forall₂_same.mpr fun x hx => ⟨plain_arr.mp h x hx, rfl⟩)
      | obj => exact .obj ⟨h, rfl⟩
      | ref => exact absurd h not_plain_ref
    · intro h
      cases h with
      | null | bool | str => exact ⟨⟨rfl, trivial⟩, rfl⟩
      | num _ h =>
        obtain rfl := h trivial
        exact ⟨⟨rfl, trivial⟩, rfl⟩
      | arr h =>
        obtain ⟨hplain, heq⟩ := (List.forall₂_and_left _ _).mp h
        rw [List.forall₂_eq_eq_eq] at heq
        exact ⟨plain_arr.mpr hplain, congrArg _ heq⟩
      | obj h => exact ⟨h.1, congrArg _ h.2⟩
      | ref hb _ => exact hb.elim
  get? := by
    rintro es _ ⟨h, rfl⟩ k
    cases hx : Entries.get? es k with
    | none => exact .none
    | some x => exact .some ⟨(plain_obj.mp h).2 _ (Entries.mem_of_get? hx), rfl⟩
  length_eq h := congrArg List.length h.2
  nil := ⟨plain_obj.mpr ⟨.nil, nofun⟩, rfl⟩
  insert := by
    rintro es _ x _ ⟨h, rfl⟩ ⟨hx, rfl⟩ k
    obtain ⟨hk, he⟩ := plain_obj.mp h
    exact ⟨plain_obj.mpr ⟨Entries.nodup_keys_insert hk k x, Entries.forall_insert he k hx⟩, rfl⟩
  update := by
    rintro es es' _ _ ⟨h, rfl⟩ ⟨h', rfl⟩
    obtain ⟨hk, he⟩ := plain_obj.mp h
    obtain ⟨-, he'⟩ := plain_obj.mp h'
    exact ⟨plain_obj.mpr ⟨Entries.nodup_keys_update hk es', Entries.forall_update he he'⟩, rfl⟩

/-- Comparisons of the same values go the same way. -/
theorem Likeness.plain_compares {R : Run.Relator} (shared : Sharing) :
    Likeness.plain.Compares R shared shared := by
  refine compares_of_equal?_eq ?_
  rintro x _ y _ ⟨-, rfl⟩ ⟨-, rfl⟩
  rfl

theorem Likeness.plain_ordered : Likeness.plain.Ordered where
  exact := trivial
  entries := by
    rintro es _ ⟨h, rfl⟩
    exact List.forall₂_same.mpr fun entry hm => ⟨rfl, (plain_obj.mp h).2 entry hm, rfl⟩
  render_eq h := by rw [h.2]

/-! ### Evaluations related to themselves -/

namespace Run
variable {α β γ δ : Type} {may : Failure → Prop} {near : α → β → Prop}

/-- Two evaluations end together: with related results, or both with failures, of which the first is
one that there may be. -/
def Together (may : Failure → Prop) (near : α → β → Prop) (x : Run α) (y : Run β) : Prop :=
  match x.outcome, y.outcome with
  | .ok a, .ok b => near a b
  | .error f, .error _ => may f
  | _, _ => False

theorem together_bind {near' : γ → δ → Prop} {x : Run α} {y : Run β} {f : α → Run γ} {g : β → Run δ}
    (h : Together may near x y) (hf : ∀ ⦃a b⦄, near a b → Together may near' (f a) (g b)) :
    Together may near' (x >>= f) (y >>= g) := by
  obtain ⟨ox, cx⟩ := x
  obtain ⟨oy, cy⟩ := y
  cases ox with
  | ok a =>
    cases oy with
    | ok b => exact hf h
    | error => exact h.elim
  | error f =>
    cases oy with
    | ok => exact h.elim
    | error => exact h

/-- Ending together relates evaluations, if there may be all failures but those at the limit. -/
def together (may : Failure → Prop) (hmay : ∀ ⦃f f'⦄, f.Paired (fun _ _ => True) f' → may f) :
    Relator where
  rel := Together may
  place _ _ := True
  pure h := h
  fail h := hmay h
  bind := together_bind
  afterCall _ h := h

/-- What relates an evaluation to itself is what is said of its end. -/
theorem together_self {good : α → Prop} {x : Run α} :
    Together may (fun a b => good a ∧ a = b) x x ↔ Ends good may x := by
  obtain ⟨o, c⟩ := x
  cases o with
  | ok a => exact and_iff_left rfl
  | error f => exact Iff.rfl

end Run

/-! ### References that are passed on -/

namespace Expr

/-- Whether a node is a reference. -/
def isReference : Expr → Bool
  | .unary .reference _ _ => true
  | _ => false

theorem isReference_iff {e : Expr} : e.isReference = true ↔ ∃ b o, e = .unary .reference b o := by
  constructor
  · intro h
    match e, h with
    | .unary .reference b o, _ => exact ⟨b, o, rfl⟩
  · rintro ⟨b, o, rfl⟩
    rfl

/-- Whether a node is a call of a function that evaluates a reference. -/
def takesReferences : Expr → Bool
  | .call name _ _ => Builtin.takeReferences.any fun s => Text.ofString s == name
  | _ => false

/-- Every reference in a tree is passed to a function that evaluates it. -/
def PassesReferences (root : Expr) : Prop :=
  root.isReference = false ∧
    ∀ n ∈ root.walk, ∀ c ∈ n.children, c.isReference = true → n.takesReferences = true

instance (root : Expr) : Decidable root.PassesReferences :=
  inferInstanceAs (Decidable (_ ∧ _))

/-- A node of a tree, no reference itself, that may be evaluated at a depth: unless evaluations may
be deep, all nodes below it are evaluated before the limit. -/
structure Evaluable (root : Expr) (deep : Prop) (limit : Int) (depth : Nat) (e : Expr) : Prop where
  mem : e ∈ root.walk
  direct : e.isReference = false
  shallow : deep ∨ depth + e.height ≤ limit

variable {root e c : Expr} {deep : Prop} {limit : Int} {d : Nat}

theorem height_pos (e : Expr) : 0 < e.height := by
  cases e <;> exact Nat.succ_pos _

/-- The limit is not reached at a node that may be evaluated. -/
theorem Evaluable.reach (h : Evaluable root deep limit d e) : deep ∨ (d + 1 : Int) ≤ limit := by
  have hpos := e.height_pos
  exact h.shallow.imp_right fun h => by omega

theorem Evaluable.child (h : Evaluable root deep limit d e) (hc : c ∈ e.children)
    (hr : c.isReference = false) : Evaluable root deep limit (d + 1) c := by
  refine ⟨mem_walk_of_mem_children h.mem hc, hr, ?_⟩
  have hlt := height_lt_of_mem_children hc
  exact h.shallow.imp_right fun h => by omega

/-- The body of a reference below a node. -/
theorem Evaluable.body (h : Evaluable root deep limit d e) (hroot : root.PassesReferences)
    {b : Expr} {o : Nat} (hc : .unary .reference b o ∈ e.children) :
    Evaluable root deep limit (d + 1) b := by
  have hmem := mem_walk_of_mem_children h.mem hc
  have hb : b ∈ (Expr.unary .reference b o).children := List.mem_singleton_self b
  refine ⟨mem_walk_of_mem_children hmem hb, ?_, ?_⟩
  · rw [← Bool.not_eq_true]
    intro hr
    exact absurd (hroot.2 _ hmem b hb hr) Bool.false_ne_true
  · have hlt := height_lt_of_mem_children hb
    have hlt' := height_lt_of_mem_children hc
    exact h.shallow.imp_right fun h => by omega

end Expr

/-! ### Evaluations -/

/-- A failure that is not at the limit, unless evaluations may be deep. -/
def Failure.Shallow (deep : Prop) : Failure → Prop
  | .problem (.recursionLimit _) _ => deep
  | _ => True

theorem Failure.shallow_of_paired (deep : Prop) ⦃f f' : Failure⦄
    (h : f.Paired (fun _ _ => True) f') : f.Shallow deep := by
  cases h with
  | @problem p _ _ hp _ =>
    cases p with
    | recursionLimit l => exact absurd rfl (hp l)
    | unknownFunction | invalidArity | invalidType | invalidSlice | invalidSortKey => trivial
  | sumOverflow | exhausted | host => trivial

/-- An argument of a function that evaluates references: a plain value, or a reference to a node
that may be evaluated. -/
inductive Value.Argument (root : Expr) (deep : Prop) (limit : Int) (depth : Nat) : Value → Prop
  | plain {x} : Plain x → Argument root deep limit depth x
  | ref {b x} : Expr.Evaluable root deep limit depth b → Argument root deep limit depth (.ref b x)

/-- What evaluations, and calls of functions that evaluate a reference, give within a number of
steps. -/
structure PlainAt (root : Expr) (deep : Prop) (env : Env) (steps : Nat) : Prop where
  eval : ∀ ⦃d e v⦄, Expr.Evaluable root deep env.limit d e → Plain v →
    Ends Plain (Failure.Shallow deep) (eval env steps d e v)
  pass : ∀ ⦃d o s xs⦄, s ∈ Builtin.takeReferences → (∀ x ∈ xs, Argument root deep env.limit d x) →
    Ends Plain (Failure.Shallow deep) (invoke env steps d o (Text.ofString s) xs)

section
variable {root : Expr} {deep : Prop} {env : Env} {steps d : Nat} {v : Value}

/-- The relation that stands for ending with a plain value, or with a failure that is not at the
limit unless evaluations may be deep. -/
def plainly (deep : Prop) : Relator :=
  together (Failure.Shallow deep) (Failure.shallow_of_paired deep)

theorem passed_argument {limit : Int} {x : Value} (h : Argument root deep limit d x) :
    Builtin.Passed .plain (fun b c => Expr.Evaluable root deep limit d b ∧ b = c) x x := by
  cases h with
  | plain h =>
    have hx : Likeness.plain.value x x := ⟨h, rfl⟩
    have hbody := Builtin.body?_rel hx
    refine ⟨rfl, ?_, Builtin.items?_rel hx⟩
    generalize Builtin.body? x = b at hbody
    cases hbody with
    | none => exact .none
    | some hb => exact hb.elim
  | ref h => exact ⟨rfl, .some ⟨h, rfl⟩, .none⟩

theorem guards_of_reach {near : Value → Value → Prop} (hd : deep ∨ (d + 1 : Int) ≤ env.limit)
    (o : Int) : (plainly deep).Guards near env env d d o o := by
  intro x y h
  rw [Env.guard, Env.guard]
  split
  · rcases hd with hdeep | hd
    · exact hdeep
    · omega
  · exact h

/-- The guard of a node that the limit lets through, or of one in an evaluation that may be deep. -/
theorem ends_of_reach {good : Value → Prop} (hd : deep ∨ (d + 1 : Int) ≤ env.limit) {o : Int}
    {x : Run Value} (h : Ends good (Failure.Shallow deep) x) :
    Ends good (Failure.Shallow deep) (env.guard d o x) :=
  together_self.mp (guards_of_reach hd o (together_self.mpr h))

/-- A call gives what the function gives on what the arguments give. -/
theorem call_plain {good : Value → Prop} {name : Text} {args : List Expr} {o : Nat}
    (he : Expr.Evaluable root deep env.limit d (.call name args o))
    (hargs : ∀ c ∈ args, Ends good (Failure.Shallow deep) (eval env steps (d + 1) c v))
    (hinvoke : ∀ ⦃xs⦄, (∀ x ∈ xs, good x) →
      Ends Plain (Failure.Shallow deep) (invoke env steps (d + 1) o name xs)) :
    Ends Plain (Failure.Shallow deep) (eval env (steps + 1) d (.call name args o) v) := by
  unfold eval
  refine ends_of_reach he.reach ?_
  refine ends_bind (ends_mapM hargs) ?_
  intro xs hxs
  exact ends_afterCall (hinvoke hxs)

/-- On plain arguments every function gives a plain value: there is no reference to evaluate. -/
theorem invoke_plain (hr : env.registry = .standard) {o : Int} {name : Text} {xs : List Value}
    (hx : ∀ x ∈ xs, Plain x) :
    Ends Plain (Failure.Shallow deep) (invoke env steps d o name xs) := by
  cases steps with
  | zero =>
    rw [invoke]
    exact ends_fail trivial
  | succ steps =>
    have hxs : List.Forall₂ Likeness.plain.value xs xs :=
      List.forall₂_same.mpr fun x hm => ⟨hx x hm, rfl⟩
    refine together_self.mp ?_
    refine rel_invoke (R := plainly deep) (L := .plain) (A := .plain) rfl trivial hxs ?_
    intro f hf
    rw [hr] at hf
    have hkeeps : f.Keeps (plainly deep) .plain :=
      Registry.standard_keeps (fun _ => Likeness.plain_ordered) hf
    exact hkeeps ⟨trivial, Likeness.plain_compares _, fun _ _ _ _ h => h.elim⟩ hxs

variable (ih : PlainAt root deep env steps)
include ih

theorem pass_plain (hr : env.registry = .standard) {o : Int} {s : String} {xs : List Value}
    (hs : s ∈ Builtin.takeReferences) (hx : ∀ x ∈ xs, Argument root deep env.limit d x) :
    Ends Plain (Failure.Shallow deep) (invoke env (steps + 1) d o (Text.ofString s) xs) := by
  refine together_self.mp ?_
  refine rel_invoke (R := plainly deep) (L := .plain) (A := .identical) rfl trivial
    (List.forall₂_same.mpr fun _ _ => rfl) ?_
  intro f hf
  rw [hr] at hf
  have hpasses : Builtin.Passes (plainly deep) .plain
      (fun b c => Expr.Evaluable root deep env.limit d b ∧ b = c) f.body :=
    Registry.standard_passes hs hf
  refine hpasses ⟨trivial, Likeness.plain_compares _, ?_⟩
    (List.forall₂_same.mpr fun x hm => passed_argument (hx x hm))
  rintro e _ x _ ⟨he, rfl⟩ ⟨hx, rfl⟩
  exact together_self.mpr (ih.eval he hx)

/-- What stands directly below a node is an argument for a call there, also if it is a reference. -/
theorem argument_ends (hroot : root.PassesReferences) {e c : Expr}
    (he : Expr.Evaluable root deep env.limit d e) (hv : Plain v) (hc : c ∈ e.children) :
    Ends (Argument root deep env.limit (d + 1)) (Failure.Shallow deep)
      (eval env steps (d + 1) c v) := by
  cases hr : c.isReference with
  | false => exact ends_imp (ih.eval (he.child hc hr) hv) fun _ => .plain
  | true =>
    obtain ⟨b, o, rfl⟩ := Expr.isReference_iff.mp hr
    have hb := he.body hroot hc
    cases steps with
    | zero =>
      rw [eval]
      exact ends_fail trivial
    | succ steps =>
      unfold eval
      exact ends_of_reach hb.reach (ends_pure (.ref hb))

theorem eval_succ_plain (hr : env.registry = .standard) (hlit : root.DistinctLiterals)
    (hroot : root.PassesReferences) {e : Expr} (he : Expr.Evaluable root deep env.limit d e)
    (hv : Plain v) :
    Ends Plain (Failure.Shallow deep) (eval env (steps + 1) d e v) := by
  let R := plainly deep
  -- Operands other than references are nodes that may be evaluated one level deeper.
  let near := fun c c' => Expr.Evaluable root deep env.limit (d + 1) c ∧ c = c'
  have hsub : ∀ ⦃c c' x x'⦄, near c c' → Likeness.plain.value x x' →
      R.rel Likeness.plain.value (eval env steps (d + 1) c x) (eval env steps (d + 1) c' x') := by
    rintro c _ x _ ⟨hc, rfl⟩ ⟨hx, rfl⟩
    exact together_self.mpr (ih.eval hc hx)
  have hg : ∀ o, R.Guards Likeness.plain.value env env d d o o := guards_of_reach he.reach
  have hbody : ∀ {b o}, e = .unary .reference b o → False := by
    rintro b o rfl
    exact absurd he.direct (Ne.symm Bool.false_ne_true)
  have hliteral : ∀ {j o}, e = .atom (.literal j) o →
      Likeness.plain.value (Data.ofJson j) (Data.ofJson j) := by
    rintro j o rfl
    exact ⟨plain_ofJson (hlit he.mem), rfl⟩
  have operand : e.takesReferences = false → ∀ c ∈ e.children, near c c := by
    intro ht c hc
    refine ⟨he.child hc ?_, rfl⟩
    rw [← Bool.not_eq_true]
    intro hc'
    exact absurd (hroot.2 e he.mem c hc hc') (ht ▸ Bool.false_ne_true)
  cases e with
  | call name args o =>
    cases ht : (Expr.call name args o).takesReferences with
    | false =>
      refine call_plain he (fun c hc => ih.eval (operand ht c hc).1 hv) ?_
      intro xs hxs
      exact invoke_plain hr hxs
    | true =>
      obtain ⟨s, hs, hname⟩ := List.any_eq_true.mp ht
      obtain rfl := eq_of_beq hname
      refine call_plain he (fun c hc => argument_ends ih hroot he hv hc) ?_
      intro xs hxs
      exact ih.pass hs hxs
  | atom | unary | binary | filter | list | hash =>
    refine together_self.mp ?_
    refine Expr.Paired.rel_eval (R := R) (L := .plain) hsub ?_ (Likeness.plain_compares _) (hg _)
      ⟨hv, rfl⟩
    exact Expr.paired_self nofun (fun _ => trivial) (operand rfl) hbody hliteral
      fun _ => Likeness.plain_ordered

end

/-- A tree all of whose references are passed to functions that evaluate them gives plain values on
plain values, and reaches the limit only if it is higher than the limit. -/
theorem eval_plain {root : Expr} {deep : Prop} {env : Env} (hr : env.registry = .standard)
    (hlit : root.DistinctLiterals) (hroot : root.PassesReferences) (steps : Nat) :
    PlainAt root deep env steps := by
  induction steps with
  | zero =>
    constructor
    · intro d e v _ _
      rw [eval]
      exact ends_fail trivial
    · intro d o s xs _ _
      rw [invoke]
      exact ends_fail trivial
  | succ steps ih =>
    constructor
    · intro d e v he hv
      exact eval_succ_plain ih hr hlit hroot he hv
    · intro d o s xs hs hx
      exact pass_plain ih hr hs hx

end JsonQuery
