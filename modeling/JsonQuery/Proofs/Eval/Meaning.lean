/-
What a bare expression gives.

The results of an expression do not depend on where its parts stand, so they belong to the bare
expression: `Means` relates it to what any evaluation of it by some registry gives on a value.

* `Means.unique` — by steady functions an expression gives one result at most, up to offsets;
* `Means.step`, `Means.eachItem` — what steps and projections give is told by their operands.
-/
import JsonQuery.Proofs.Eval.Agree

namespace JsonQuery

open Value

/-- Some evaluation of an expression by the functions of a registry gives a result on a value. -/
def Means (shared : Sharing) (r : Registry) (b : Expr) (v x : Value) : Prop :=
  ∃ env steps depth e, env.registry = r ∧ env.shared = shared ∧ e.bare = b ∧
    (eval env steps depth e v).outcome = .ok x

variable {shared : Sharing} {r : Registry} {b : Expr} {v v' x x' : Value}

/-- By steady functions an expression gives one result at most, up to offsets. -/
theorem Means.unique (hr : r.Steady) (hv : Like v v') (h : Means shared r b v x)
    (h' : Means shared r b v' x') : Like x x' := by
  obtain ⟨env, steps, depth, e, rfl, hs, rfl, he⟩ := h
  obtain ⟨env', steps', depth', e', henv, hs', hb, he'⟩ := h'
  exact eval_agree henv.symm hr (hs.trans hs'.symm) hb.symm hv he he'

/-! ### The trees of a bare tree -/

theorem bare_eq_atom {e : Expr} {a : Atom} (h : e.bare = .atom a 0) : ∃ o, e = .atom a o := by
  cases e <;> simp only [Expr.bare, Expr.atom.injEq, reduceCtorEq] at h
  exact ⟨_, by rw [h.1]⟩

theorem bare_eq_binary {e a b : Expr} {op : BinaryOp} (h : e.bare = .binary op a b 0) :
    ∃ a' b' o, e = .binary op a' b' o ∧ a'.bare = a ∧ b'.bare = b := by
  cases e <;> simp only [Expr.bare, Expr.binary.injEq, reduceCtorEq] at h
  obtain ⟨rfl, ha, hb, -⟩ := h
  exact ⟨_, _, _, rfl, ha, hb⟩

theorem bare_eq_list {e : Expr} {es : List Expr} (h : e.bare = .list es 0) :
    ∃ es' o, e = .list es' o := by
  cases e <;> simp only [Expr.bare, reduceCtorEq] at h
  exact ⟨_, _, rfl⟩

theorem bare_eq_hash {e : Expr} {ps : List (Text × Expr)} (h : e.bare = .hash ps 0) :
    ∃ ps' o, e = .hash ps' o := by
  cases e <;> simp only [Expr.bare, reduceCtorEq] at h
  exact ⟨_, _, rfl⟩

theorem bare_eq_call {e : Expr} {name : Text} {args : List Expr}
    (h : e.bare = .call name args 0) : ∃ args' o, e = .call name args' o := by
  cases e <;> simp only [Expr.bare, Expr.call.injEq, reduceCtorEq] at h
  exact ⟨_, _, by rw [h.1]⟩

/-! ### What expressions give -/

theorem outcome_guard {α : Type} {p : Prop} [Decidable p] {f : Failure} {run : Run α} {a : α}
    (h : (if p then Run.fail f else run).outcome = .ok a) : run.outcome = .ok a := by
  split at h
  · cases h
  · exact h

theorem outcome_bind_ok {α β : Type} {run : Run α} {f : α → Run β} {y : β}
    (h : (run >>= f).outcome = .ok y) : ∃ a, run.outcome = .ok a ∧ (f a).outcome = .ok y := by
  rw [Run.outcome_bind] at h
  cases hr : run.outcome with
  | error _ =>
    rw [hr] at h
    cases h
  | ok a =>
    rw [hr] at h
    exact ⟨a, rfl, h⟩

theorem mapM_outcome {α β : Type} {f : α → Run β} {xs : List α} {ys : List β}
    (h : (xs.mapM f).outcome = .ok ys) :
    List.Forall₂ (fun a b => (f a).outcome = .ok b) xs ys := by
  induction xs generalizing ys with
  | nil =>
    cases h
    exact .nil
  | cons x xs ih =>
    rw [List.mapM_cons] at h
    obtain ⟨y, hy, h⟩ := outcome_bind_ok h
    obtain ⟨ys', hys, h⟩ := outcome_bind_ok h
    cases h
    exact .cons hy (ih hys)

/-- Without steps nothing is evaluated. -/
theorem exists_steps {env : Env} {steps depth : Nat} {e : Expr}
    (h : (eval env steps depth e v).outcome = .ok x) : ∃ n, steps = n + 1 := by
  cases steps with
  | zero =>
    rw [eval] at h
    cases h
  | succ n => exact ⟨n, rfl⟩

theorem Means.atom {a : Atom} (h : Means shared r (.atom a 0) v x) :
    ∃ o, (a.eval v o).outcome = .ok x := by
  obtain ⟨env, steps, depth, e, rfl, hs, hb, he⟩ := h
  obtain ⟨o, rfl⟩ := bare_eq_atom hb
  obtain ⟨steps, rfl⟩ := exists_steps he
  rw [eval] at he
  exact ⟨o, outcome_guard he⟩

theorem Means.current (h : Means shared r (.atom .current 0) v x) : x = v := by
  obtain ⟨_, h⟩ := h.atom
  cases h
  rfl

theorem Means.field {name : Text} (h : Means shared r (.atom (.field name) 0) v x) :
    x = v.getField name := by
  obtain ⟨_, h⟩ := h.atom
  cases h
  rfl

theorem Means.index {i : Int} (h : Means shared r (.atom (.index i) 0) v x) : x = v.getIndex i := by
  obtain ⟨_, h⟩ := h.atom
  cases h
  rfl

theorem Means.list_null {es : List Expr} (h : Means shared r (.list es 0) .null x) : x = .null := by
  obtain ⟨env, steps, depth, e, rfl, hs, hb, he⟩ := h
  obtain ⟨es', o, rfl⟩ := bare_eq_list hb
  obtain ⟨steps, rfl⟩ := exists_steps he
  rw [eval] at he
  cases outcome_guard he
  rfl

theorem Means.hash_null {ps : List (Text × Expr)} (h : Means shared r (.hash ps 0) .null x) :
    x = .null := by
  obtain ⟨env, steps, depth, e, rfl, hs, hb, he⟩ := h
  obtain ⟨ps', o, rfl⟩ := bare_eq_hash hb
  obtain ⟨steps, rfl⟩ := exists_steps he
  rw [eval] at he
  cases outcome_guard he
  rfl

/-- A step gives what its right side gives on what its left side gives. -/
theorem Means.step {a c : Expr} (h : Means shared r (.binary .step a c 0) v x) :
    ∃ y, Means shared r a v y ∧ Means shared r c y x := by
  obtain ⟨env, steps, depth, e, rfl, hs, hb, he⟩ := h
  obtain ⟨a', c', o, rfl, rfl, rfl⟩ := bare_eq_binary hb
  obtain ⟨steps, rfl⟩ := exists_steps he
  rw [eval] at he
  obtain ⟨y, ha, hc⟩ := outcome_bind_ok (outcome_guard he)
  exact ⟨y, ⟨env, steps, depth + 1, a', rfl, hs, rfl, ha⟩, env, steps, depth + 1, c', rfl, hs,
    rfl, hc⟩

/-- The values that are not null. -/
def nonNull (xs : List Value) : List Value :=
  xs.filter fun x => !x.isNull

theorem nonNull_cons (x : Value) (xs : List Value) :
    nonNull (x :: xs) = if x.isNull then nonNull xs else x :: nonNull xs := by
  rw [nonNull, List.filter_cons, ← nonNull]
  cases x.isNull <;> rfl

theorem likeAll_nonNull {xs ys : List Value} (h : LikeAll xs ys) :
    LikeAll (nonNull xs) (nonNull ys) := by
  rw [LikeAll, nonNull, nonNull, filter_bare, filter_bare, h]

theorem likeAll_nonNull_cons {x y : Value} {xs ys : List Value} (h : Like x y)
    (hs : LikeAll (nonNull xs) (nonNull ys)) :
    LikeAll (nonNull (x :: xs)) (nonNull (y :: ys)) := by
  rw [nonNull_cons, nonNull_cons, h.isNull_eq]
  split
  · exact hs
  · exact likeAll_cons h hs

theorem eq_null_of_isNull {x : Value} (h : x.isNull = true) : x = .null := by
  cases x <;> first | rfl | cases h

/-- A projection of the items of an array gives what its right side gives on them, but for
nulls. -/
theorem Means.eachItem {a c : Expr} (h : Means shared r (.binary .eachItem a c 0) v x) :
    ∃ y, Means shared r a v y ∧ ∀ items, y = .arr items →
      ∃ ys, List.Forall₂ (Means shared r c) items ys ∧ x = .arr (nonNull ys) := by
  obtain ⟨env, steps, depth, e, rfl, hs, hb, he⟩ := h
  obtain ⟨a', c', o, rfl, rfl, rfl⟩ := bare_eq_binary hb
  obtain ⟨steps, rfl⟩ := exists_steps he
  rw [eval] at he
  obtain ⟨y, ha, hc⟩ := outcome_bind_ok (outcome_guard he)
  refine ⟨y, ⟨env, steps, depth + 1, a', rfl, hs, rfl, ha⟩, ?_⟩
  rintro items rfl
  obtain ⟨ys, hys, h⟩ := outcome_bind_ok hc
  cases h
  refine ⟨ys, (mapM_outcome hys).imp ?_, rfl⟩
  intro v x h
  exact ⟨env, steps, depth + 1, c', rfl, hs, rfl, h⟩

end JsonQuery
