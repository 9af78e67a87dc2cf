/-
Relations that evaluations keep.

Much of what is said of evaluations compares two of them: in another layout of the source, on a
document with its keys in another order, under a higher limit.  Such a comparison relates values,
and then the evaluations by what it says of their results.

* `Run.Relator` — a way to relate evaluations, given how their results are related;
* `Likeness` — a relation of values that looks through arrays, objects and references, and that the
  operations on maps and numbers keep;
* `Likeness.Compares` — comparisons of like values are related;
* `Likeness.value_getField`, `Likeness.value_slice`, `Likeness.check_eq` — what queries ask of
  values does not part those that are like;
* `Likeness.rel_apply`, `Likeness.rel_atom`, `Likeness.rel_project` — nor do the parts of an
  evaluation.
-/
import Mathlib.Data.List.Forall2
import Mathlib.Data.Option.Basic
import JsonQuery.Eval

namespace JsonQuery

/-! ### Runs -/

namespace Run
variable {α β γ : Type}

theorem id_map (x : Run α) : id <$> x = x := by
  obtain ⟨o, c⟩ := x
  cases o <;> rfl

theorem pure_bind (a : α) (f : α → Run β) : (Pure.pure a >>= f : Run β) = f a := by
  simp [Pure.pure, Bind.bind, Run.bind, Run.pure]

theorem bind_assoc (x : Run α) (f : α → Run β) (g : β → Run γ) :
    x >>= f >>= g = x >>= fun a => f a >>= g := by
  obtain ⟨o, c⟩ := x
  cases o with
  | error _ => rfl
  | ok a =>
    simp only [Bind.bind, Run.bind]
    cases (f a).outcome with
    | error _ => rfl
    | ok b => simp [Option.or_assoc]

instance : LawfulMonad Run := LawfulMonad.mk' Run id_map pure_bind bind_assoc

end Run

/-- Two failures are the same, at offsets that are related.  Reaching the limit is left to those who
compare limits. -/
inductive Failure.Paired (place : Int → Int → Prop) : Failure → Failure → Prop
  | problem {p o o'} : (∀ l, p ≠ .recursionLimit l) → place o o' →
    Paired place (.problem p o) (.problem p o')
  | sumOverflow : Paired place .sumOverflow .sumOverflow
  | exhausted : Paired place .exhausted .exhausted
  | host {f} : Paired place (.host f) (.host f)

/-- A way to relate evaluations, given how their results are related. -/
structure Run.Relator where
  rel : {α β : Type} → (α → β → Prop) → Run α → Run β → Prop
  /-- How the offsets of failures and calls are related. -/
  place : Int → Int → Prop
  pure : ∀ {α β : Type} {near : α → β → Prop} {a : α} {b : β}, near a b →
    rel near (Pure.pure a) (Pure.pure b)
  fail : ∀ {α β : Type} {near : α → β → Prop} {f f' : Failure}, f.Paired place f' →
    rel near (Run.fail f) (Run.fail f')
  bind : ∀ {α β γ δ : Type} {near : α → β → Prop} {near' : γ → δ → Prop} {x : Run α} {y : Run β}
    {f : α → Run γ} {g : β → Run δ}, rel near x y →
    (∀ ⦃a b⦄, near a b → rel near' (f a) (g b)) → rel near' (x >>= f) (y >>= g)
  afterCall : ∀ {α β : Type} {near : α → β → Prop} {x : Run α} {y : Run β} {o o' : Int},
    place o o' → rel near x y → rel near (x.afterCall o) (y.afterCall o')

namespace Run.Relator
variable {R : Relator} {α β ι κ : Type} {near : α → β → Prop}

theorem imp {near' : α → β → Prop} {x : Run α} {y : Run β} (h : R.rel near x y)
    (hn : ∀ ⦃a b⦄, near a b → near' a b) : R.rel near' x y := by
  have hb := R.bind h fun a b hab => R.pure (hn hab)
  rwa [bind_pure, bind_pure] at hb

theorem mapM {f : ι → Run α} {g : κ → Run β} {from' : ι → κ → Prop} {xs : List ι} {ys : List κ}
    (h : List.Forall₂ from' xs ys) (hf : ∀ ⦃a b⦄, from' a b → R.rel near (f a) (g b)) :
    R.rel (List.Forall₂ near) (xs.mapM f) (ys.mapM g) := by
  induction h with
  | nil => exact R.pure .nil
  | cons hxy _ ih =>
    rw [List.mapM_cons, List.mapM_cons]
    refine R.bind (hf hxy) ?_
    intro a b hab
    refine R.bind ih ?_
    intro as bs habs
    exact R.pure (.cons hab habs)

end Run.Relator

/-! ### Likenesses -/

/-- Two entries have the same key and related values. -/
def Entries.Near {α β : Type} (near : α → β → Prop) (p : Text × α) (q : Text × β) : Prop :=
  p.1 = q.1 ∧ near p.2 q.2

/-- How two values that are like are built.  Numbers are the same by value, and the same altogether
where that is asked for. -/
inductive Value.Built (exact : Prop) (body : Expr → Expr → Prop) (value : Value → Value → Prop)
    (entries : Entries Value → Entries Value → Prop) : Value → Value → Prop
  | null : Built exact body value entries .null .null
  | bool {b} : Built exact body value entries (.bool b) (.bool b)
  | num {x y : Number} : x.toInt = y.toInt → (exact → x = y) →
    Built exact body value entries (.num x) (.num y)
  | str {t} : Built exact body value entries (.str t) (.str t)
  | arr {xs ys} : List.Forall₂ value xs ys → Built exact body value entries (.arr xs) (.arr ys)
  | obj {es fs} : entries es fs → Built exact body value entries (.obj es) (.obj fs)
  | ref {b c x y} : body b c → value x y → Built exact body value entries (.ref b x) (.ref c y)

/-- A relation of values that looks through arrays, objects and references, and that the operations
on maps keep. -/
structure Likeness where
  /-- Whether the sign of zero counts. -/
  exact : Prop
  body : Expr → Expr → Prop
  value : Value → Value → Prop
  entries : Entries Value → Entries Value → Prop
  built : ∀ {x y}, value x y ↔ Value.Built exact body value entries x y
  get? : ∀ {es fs}, entries es fs → ∀ k, Option.Rel value (Entries.get? es k) (Entries.get? fs k)
  length_eq : ∀ {es fs}, entries es fs → es.length = fs.length
  nil : entries [] []
  insert : ∀ {es fs x y}, entries es fs → value x y → ∀ k,
    entries (Entries.insert k x es) (Entries.insert k y fs)
  update : ∀ {es es' fs fs'}, entries es fs → entries es' fs' →
    entries (Entries.update es es') (Entries.update fs fs')

/-- A likeness that keeps the order of keys, and with it the JSON text of a value. -/
structure Likeness.Ordered (L : Likeness) : Prop where
  exact : L.exact
  entries : ∀ {es fs}, L.entries es fs → List.Forall₂ (Entries.Near L.value) es fs
  render_eq : ∀ {x y}, L.value x y → Data.render none x = Data.render none y

namespace Likeness
variable {L : Likeness} {x y : Value} {xs ys : List Value}

@[simp] theorem value_null : L.value .null .null :=
  L.built.mpr .null

@[simp] theorem value_bool (b : Bool) : L.value (.bool b) (.bool b) :=
  L.built.mpr .bool

@[simp] theorem value_num (x : Number) : L.value (.num x) (.num x) :=
  L.built.mpr (.num rfl fun _ => rfl)

@[simp] theorem value_str (t : Text) : L.value (.str t) (.str t) :=
  L.built.mpr .str

theorem value_arr (h : List.Forall₂ L.value xs ys) : L.value (.arr xs) (.arr ys) :=
  L.built.mpr (.arr h)

theorem value_obj {es fs : Entries Value} (h : L.entries es fs) : L.value (.obj es) (.obj fs) :=
  L.built.mpr (.obj h)

/-- A number made of another in a way that its value tells. -/
theorem value_number {g : Number → Number} {a b : Number} (h : L.value (.num a) (.num b))
    (hg : a.toInt = b.toInt → (g a).toInt = (g b).toInt) : L.value (.num (g a)) (.num (g b)) := by
  cases L.built.mp h with
  | num hv he => exact L.built.mpr (.num (hg hv) fun hx => congrArg g (he hx))

/-! ### What queries ask of values -/

theorem kind_eq (h : L.value x y) : x.kind = y.kind := by
  cases L.built.mp h <;> rfl

theorem isNull_eq (h : L.value x y) : x.isNull = y.isNull := by
  cases L.built.mp h <;> rfl

theorem isTruthy_eq (h : L.value x y) : x.isTruthy = y.isTruthy := by
  cases L.built.mp h with
  | arr hi => cases hi <;> rfl
  | @obj es fs he =>
    have hlen := L.length_eq he
    cases es <;> cases fs <;> first | rfl | simp at hlen
  | null | bool | num | str | ref => rfl

theorem value_getD {a b : Option Value} (h : Option.Rel L.value a b) :
    L.value (a.getD .null) (b.getD .null) := by
  cases h with
  | none => exact value_null
  | some h => exact h

theorem getElem?_rel {α β : Type} {near : α → β → Prop} {xs : List α} {ys : List β}
    (h : List.Forall₂ near xs ys) (n : Nat) : Option.Rel near xs[n]? ys[n]? := by
  induction h generalizing n with
  | nil => exact .none
  | cons hxy _ ih =>
    cases n with
    | zero => exact .some hxy
    | succ n =>
      rw [List.getElem?_cons_succ, List.getElem?_cons_succ]
      exact ih n

theorem value_getField (h : L.value x y) (name : Text) :
    L.value (x.getField name) (y.getField name) := by
  cases L.built.mp h with
  | obj he => exact value_getD (L.get? he name)
  | null | bool | num | str | arr | ref => exact value_null

theorem value_getIndex (h : L.value x y) (i : Int) : L.value (x.getIndex i) (y.getIndex i) := by
  cases L.built.mp h with
  | arr hi =>
    simp only [Data.getIndex, hi.length_eq]
    generalize (if i < 0 then i + (_ : Int) else i) = place
    split
    · exact value_null
    · exact value_getD (getElem?_rel hi _)
  | null | bool | num | str | obj | ref => exact value_null

theorem value_slice (h : L.value x y) (s : Slice) : L.value (x.slice s) (y.slice s) := by
  cases L.built.mp h with
  | arr hi =>
    refine value_arr ?_
    rw [Slice.select, Slice.select, hi.length_eq]
    refine List.rel_filterMap ?_ (List.forall₂_same.mpr fun _ _ => rfl)
    rintro n _ rfl
    exact getElem?_rel hi n
  | null | bool | num | str | obj | ref => exact value_null

theorem forall₂_flattenItems (h : List.Forall₂ L.value xs ys) :
    List.Forall₂ L.value (flattenItems xs) (flattenItems ys) := by
  refine List.rel_flatMap h ?_
  intro x y hxy
  cases L.built.mp hxy with
  | arr hi => exact hi
  | null | bool | num | str | obj | ref => exact .cons hxy .nil

theorem forall₂_nonNull (h : List.Forall₂ L.value xs ys) :
    List.Forall₂ L.value (xs.filter fun x => !x.isNull) (ys.filter fun x => !x.isNull) := by
  refine List.rel_filter ?_ h
  intro x y hxy
  exact iff_of_eq (congrArg (fun b => (!b) = true) (isNull_eq hxy))

/-- Entries put into a map one after the other. -/
theorem entries_ofList {es fs : List (Text × Value)}
    (h : List.Forall₂ (Entries.Near L.value) es fs) :
    L.entries (Entries.ofList es) (Entries.ofList fs) := by
  refine List.rel_foldl ?_ L.nil h
  rintro es₀ fs₀ h₀ ⟨k, x⟩ ⟨_, y⟩ ⟨rfl, hxy⟩
  exact L.insert h₀ hxy k

theorem Ordered.values {es fs : Entries Value} (hL : L.Ordered) (h : L.entries es fs) :
    List.Forall₂ L.value (es.map Prod.snd) (fs.map Prod.snd) := by
  rw [List.forall₂_map_left_iff, List.forall₂_map_right_iff]
  exact (hL.entries h).imp fun _ _ hpq => hpq.2

/-! ### Arguments -/

theorem isArrayOf_eq (k : Kind) (h : L.value x y) : x.isArrayOf k = y.isArrayOf k := by
  cases L.built.mp h with
  | arr hi =>
    simp only [Data.isArrayOf]
    induction hi with
    | nil => rfl
    | cons hxy _ ih => rw [List.all_cons, List.all_cons, kind_eq hxy, ih (value_arr ‹_›)]
  | null | bool | num | str | obj | ref => rfl

theorem argumentType_accepts_eq (h : L.value x y) (t : ArgumentType) :
    t.accepts x = t.accepts y := by
  cases t <;> simp only [ArgumentType.accepts, kind_eq h, isArrayOf_eq _ h]

mutual

theorem accepts_eq (h : L.value x y) : ∀ t : ParameterType, t.accepts x = t.accepts y
  | .one t => by simp only [ParameterType.accepts, argumentType_accepts_eq h]
  | .union options => by simp only [ParameterType.accepts, acceptsAny_eq h options]

theorem acceptsAny_eq (h : L.value x y) :
    ∀ ts : List ParameterType, ParameterType.acceptsAny x ts = ParameterType.acceptsAny y ts
  | [] => by simp only [ParameterType.acceptsAny]
  | t :: ts => by simp only [ParameterType.acceptsAny, accepts_eq h t, acceptsAny_eq h ts]

end

theorem checkTypes_eq (s : Signature) (name : Text) (position : Nat)
    (h : List.Forall₂ L.value xs ys) :
    s.checkTypes name position xs = s.checkTypes name position ys := by
  induction h generalizing position with
  | nil => rfl
  | cons hxy _ ih => simp only [Signature.checkTypes, accepts_eq hxy, kind_eq hxy, ih]

/-- The check of a call does not tell like arguments apart. -/
theorem check_eq (s : Signature) (name : Text) (h : List.Forall₂ L.value xs ys) :
    s.check name xs = s.check name ys := by
  rw [Signature.check, Signature.check, h.length_eq, checkTypes_eq s name 0 h]

theorem checkTypes_ne_recursionLimit (s : Signature) (name : Text) (position : Nat)
    (xs : List Value) (l : Int) : s.checkTypes name position xs ≠ .error (.recursionLimit l) := by
  induction xs generalizing position with
  | nil => nofun
  | cons x xs ih =>
    rw [Signature.checkTypes]
    split
    · split
      · exact ih _
      · nofun
    · exact ih _

/-- No check of a call tells the limit. -/
theorem check_ne_recursionLimit {s : Signature} {name : Text} {p : EvalProblem}
    (h : s.check name xs = .error p) (l : Int) : p ≠ .recursionLimit l := by
  rintro rfl
  rw [Signature.check] at h
  split at h
  · cases h
  · exact checkTypes_ne_recursionLimit s name 0 xs l h

/-! ### Comparisons -/

/-- Comparisons of like values are related, whatever is one object on either side. -/
def Compares (L : Likeness) (R : Run.Relator) (shared shared' : Sharing) : Prop :=
  ∀ ⦃x x' y y'⦄, L.value x x' → L.value y y' →
    R.rel Eq (Run.equal shared x y) (Run.equal shared' x' y')

variable {R : Run.Relator} {shared shared' : Sharing} {x' y' : Value}

/-- Comparisons that go the same way are related. -/
theorem compares_of_equal?_eq
    (h : ∀ ⦃x x' y y'⦄, L.value x x' → L.value y y' →
      Value.equal? shared x y = Value.equal? shared' x' y') : L.Compares R shared shared' := by
  intro x x' y y' hx hy
  rw [Run.equal, Run.equal, h hx hy]
  split
  · exact R.pure rfl
  · exact R.fail .exhausted

/-! ### Parts of an evaluation -/

theorem rel_apply (hc : L.Compares R shared shared') (c : Comparator) (hx : L.value x x')
    (hy : L.value y y') : R.rel L.value (c.apply shared x y) (c.apply shared' x' y') := by
  cases c with
  | eq | ne =>
    refine R.bind (hc hx hy) ?_
    rintro b _ rfl
    exact R.pure (value_bool _)
  | lt | le | gt | ge =>
    cases L.built.mp hx <;> cases L.built.mp hy <;>
      simp only [Comparator.apply, Number.lt, Number.le, *] <;>
      first | exact R.pure (value_bool _) | exact R.pure value_null

theorem rel_project {f g : Value → Run Value}
    (hf : ∀ ⦃x y⦄, L.value x y → R.rel L.value (f x) (g y)) (h : List.Forall₂ L.value xs ys) :
    R.rel L.value (project f xs) (project g ys) := by
  refine R.bind (R.mapM h hf) ?_
  intro as bs hab
  exact R.pure (value_arr (forall₂_nonNull hab))

theorem rel_keepTruthy {f g : Value → Run Value}
    (hf : ∀ ⦃x y⦄, L.value x y → R.rel L.value (f x) (g y)) (h : List.Forall₂ L.value xs ys) :
    R.rel (List.Forall₂ L.value) (keepTruthy f xs) (keepTruthy g ys) := by
  induction h with
  | nil => exact R.pure .nil
  | cons hxy _ ih =>
    refine R.bind (hf hxy) ?_
    intro a b hab
    refine R.bind ih ?_
    intro as bs habs
    refine R.pure ?_
    rw [isTruthy_eq hab]
    split
    · exact .cons hxy habs
    · exact habs

theorem rel_mapPairs {f g : Expr → Run Value} {near : Expr → Expr → Prop}
    (hf : ∀ ⦃a b⦄, near a b → R.rel L.value (f a) (g b)) {ps qs : List (Text × Expr)}
    (h : List.Forall₂ (Entries.Near near) ps qs) :
    R.rel (List.Forall₂ (Entries.Near L.value)) (mapPairs f ps) (mapPairs g qs) := by
  induction h with
  | nil => exact R.pure .nil
  | cons hpq _ ih =>
    refine R.bind (hf hpq.2) ?_
    intro a b hab
    refine R.bind ih ?_
    intro as bs habs
    exact R.pure (.cons ⟨hpq.1, hab⟩ habs)

/-- An atom gives like values, if its literal is like itself. -/
theorem rel_atom {a : Atom} {o o' : Nat} (ho : R.place o o')
    (hlit : ∀ j, a = .literal j → L.value (Data.ofJson j) (Data.ofJson j)) (h : L.value x y) :
    R.rel L.value (a.eval x o) (a.eval y o') := by
  cases a with
  | identity | current => exact R.pure h
  | field name => exact R.pure (value_getField h name)
  | index i => exact R.pure (value_getIndex h i)
  | slice s =>
    simp only [Atom.eval]
    split
    · exact R.fail (.problem nofun ho)
    · exact R.pure (value_slice h s)
  | literal j => exact R.pure (hlit j rfl)

end Likeness
end JsonQuery
