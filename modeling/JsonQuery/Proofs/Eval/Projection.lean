/-
Projections and `map`.

A projection evaluates its right side on the items of an array, or on the values of an object, and
keeps the results that are not null.  The function `map` gets to the same items through a reference
and a call, in which the right side has a step less and the left side may stand deeper.  Below the
limit both visit the same items in the same order, and fail at the same one.

* `WithoutNulls` — an array and what is left of it without nulls;
* `endsAs_map` — a call of `map` ends as a projection does whose left side gives the same items;
* `project_outcome`, `keepTruthy_outcome` — what is kept if nothing fails;
* `eval_projection` — the three projections.
-/
import JsonQuery.Proofs.Eval.Meaning
import JsonQuery.Proofs.Eval.Persist
import JsonQuery.Proofs.Function.Sound

namespace JsonQuery

open Run Builtin

/-- The second value is the first, an array, without the nulls in it. -/
def WithoutNulls (x y : Value) : Prop :=
  ∃ ys, x = .arr ys ∧ y = .arr (nonNull ys)

/-! ### The functions -/

section
variable {env : Env} (hr : ∀ name, env.registry.get? name = Registry.standard.get? name)
  (steps depth : Nat) (offset : Int)
include hr

theorem invoke_map (body : Expr) (context : Value) (xs : List Value) :
    invoke env (steps + 1) depth offset "map" [.ref body context, .arr xs] =
      (xs.mapM (eval env steps depth body) >>= fun ys => Pure.pure (.arr ys)) := by
  have hget : env.registry.get? "map" =
      some ⟨fixed [.one .expref, .one .array] (.one .array), Builtin.map⟩ := (hr "map").trans rfl
  rw [invoke_eq_body hget rfl]
  simp only [Builtin.map, binary, need_body, need_items, pure_bind]

theorem invoke_values (es : Entries Value) :
    invoke env (steps + 1) depth offset "values" [.obj es] =
      Pure.pure (.arr (es.map Prod.snd)) := by
  have hget : env.registry.get? "values" =
      some ⟨fixed [.one .object] (.one .array), Builtin.values⟩ := (hr "values").trans rfl
  rw [invoke_eq_body hget rfl]
  rfl

end

/-! ### Calls of `map` and projections -/

/-- The results of an expression on some items, with and without the nulls. -/
theorem endsAs_project {f g : Value → Run Value} (h : ∀ x, (f x).Persists (g x)) (xs : List Value) :
    EndsAs Failure.IsLimit WithoutNulls (xs.mapM f >>= fun ys => Pure.pure (.arr ys))
      (project g xs) := by
  have hm : InStep Failure.IsLimit (List.Forall₂ Eq) (xs.mapM f) (xs.mapM g) := by
    refine (inStep Failure.IsLimit).mapM (List.forall₂_same.mpr fun x (_ : x ∈ xs) => rfl) ?_
    rintro x _ rfl
    exact h x
  refine (inStep_bind hm ?_).endsAs
  intro ys ys' hy
  rw [List.forall₂_eq_eq_eq] at hy
  subst hy
  exact .inr ⟨rfl, .ok ⟨ys, rfl, rfl⟩⟩

section
variable {env : Env} {steps depth : Nat} {left right arg : Expr} {v : Value} {o o₁ o₂ o₃ : Nat}

theorem endsAs_guard {near : Value → Value → Prop} {x y : Run Value} {o o' : Int}
    (h : EndsAs Failure.IsLimit near x y) :
    EndsAs Failure.IsLimit near (env.guard depth o x) (env.guard depth o' y) := by
  rw [Env.guard, Env.guard]
  split
  · exact .inl ⟨_, rfl, trivial⟩
  · exact h

variable (hr : ∀ name, env.registry.get? name = Registry.standard.get? name)
include hr

/-- A call of `map` ends as the projection of the items that its argument gives. -/
theorem endsAs_map {y : Run Value} {k : Value → Run Value}
    (h : EndsAs Failure.IsLimit
      (fun x b => ∃ xs, x = .arr xs ∧ k b = project (eval env steps (depth + 1) right) xs)
      (eval env steps (depth + 1) arg v) y) :
    EndsAs Failure.IsLimit WithoutNulls
      (eval env (steps + 1) depth (.call "map" [.unary .reference right o₁, arg] o₂) v)
      (env.guard depth o (y >>= k)) := by
  rw [eval_call]
  refine endsAs_guard ?_
  cases steps with
  | zero => exact .inl ⟨.exhausted, rfl, trivial⟩
  | succ steps =>
    by_cases hd : ((depth + 1 : Nat) + 1 : Int) ≤ env.limit
    · simp only [List.mapM_cons, List.mapM_nil, eval_reference hd, pure_bind, bind_assoc]
      refine endsAs_bind h ?_
      rintro x b ⟨xs, rfl, hk⟩
      rw [hk, EndsAs, outcome_afterCall, invoke_map hr]
      -- In the call the right side has a step less than in the projection, at the same depth.
      exact endsAs_project ((eval_shallower hr (Nat.le_succ steps)).eval (Nat.le_refl _) right) xs
    · have hdeep : eval env (steps + 1) (depth + 1) (.unary .reference right o₁) v =
          Run.fail (.problem (.recursionLimit env.limit) o₁) := by
        rw [eval, if_pos (by omega)]
        rfl
      simp only [List.mapM_cons, hdeep]
      exact .inl ⟨_, rfl, trivial⟩

/-- A call of `values` gives the values of the object that its argument gives. -/
theorem endsAs_values (hleft : ∀ x, (eval env steps depth left v).outcome = .ok x →
      x.kind = .object) :
    EndsAs Failure.IsLimit (fun x b => ∃ es, x = .arr (es.map Prod.snd) ∧ b = .obj es)
      (eval env steps depth (.call "values" [left] o₃) v) (eval env steps depth left v) := by
  cases steps with
  | zero => exact .inl ⟨.exhausted, rfl, trivial⟩
  | succ steps =>
    rw [eval_call, Env.guard]
    split
    · exact .inl ⟨_, rfl, trivial⟩
    · have hpersists := (eval_shallower hr (Nat.le_succ steps)).eval (Nat.le_succ depth) left v
      simp only [List.mapM_cons, List.mapM_nil, pure_bind, bind_assoc]
      rw [← bind_pure (eval env (steps + 1) depth left v)]
      refine endsAs_bind (hpersists.endsAs.and_ok hleft) ?_
      rintro x b ⟨rfl, hkind⟩
      cases steps with
      | zero => exact .inl ⟨.exhausted, rfl, trivial⟩
      | succ steps =>
        cases x with
        | obj es =>
          rw [EndsAs, outcome_afterCall, invoke_values hr]
          exact .inr (.ok ⟨es, rfl, rfl⟩)
        | null | bool | num | str | arr | ref => cases hkind

end

/-! ### What is kept -/

theorem mapM_outcome_ok {α β : Type} {f : α → Run β} {g : α → β} {xs : List α}
    (h : ∀ x ∈ xs, (f x).outcome = .ok (g x)) : (xs.mapM f).outcome = .ok (xs.map g) := by
  induction xs with
  | nil => rfl
  | cons x xs ih =>
    rw [List.forall_mem_cons] at h
    rw [List.mapM_cons, outcome_bind_of_ok h.1, outcome_bind_of_ok (ih h.2)]
    rfl

/-- A projection of items whose results are known. -/
theorem project_outcome {f : Value → Run Value} {g : Value → Value} {xs : List Value}
    (h : ∀ x ∈ xs, (f x).outcome = .ok (g x)) :
    (project f xs).outcome = .ok (.arr (nonNull (xs.map g))) := by
  rw [project, outcome_bind_of_ok (mapM_outcome_ok h)]
  rfl

/-- The items that are kept if the results of the test are known. -/
theorem keepTruthy_outcome {f : Value → Run Value} {g : Value → Value} {xs : List Value}
    (h : ∀ x ∈ xs, (f x).outcome = .ok (g x)) :
    (keepTruthy f xs).outcome = .ok (xs.filter fun x => (g x).isTruthy) := by
  induction xs with
  | nil => rfl
  | cons x xs ih =>
    rw [List.forall_mem_cons] at h
    rw [keepTruthy, outcome_bind_of_ok h.1, outcome_bind_of_ok (ih h.2), List.filter_cons]
    rfl

/-! ### Projections -/

section
variable {env : Env} {steps depth : Nat} {left right p : Expr} {v x : Value} {o : Nat}

/-- A node that has an operand with a result is not too deep. -/
theorem guard_of_ok {e : Expr} (h : (eval env steps (depth + 1) e v).outcome = .ok x) (offset : Int)
    (y : Run Value) : env.guard depth offset y = y := by
  obtain ⟨steps, rfl⟩ := exists_steps h
  rw [Env.guard, if_neg]
  intro hd
  unfold eval at h
  rw [if_pos (by omega)] at h
  cases h

variable (h : (eval env steps (depth + 1) left v).outcome = .ok x)
include h

theorem eachItem_null (hx : x.kind ≠ .array) :
    (eval env (steps + 1) depth (.binary .eachItem left right o) v).outcome = .ok .null := by
  rw [eval_eachItem, guard_of_ok h, outcome_bind_of_ok h]
  cases x with
  | arr => exact absurd rfl hx
  | null | bool | num | str | obj | ref => rfl

theorem eachValue_null (hx : x.kind ≠ .object) :
    (eval env (steps + 1) depth (.binary .eachValue left right o) v).outcome = .ok .null := by
  rw [eval_eachValue, guard_of_ok h, outcome_bind_of_ok h]
  cases x with
  | obj => exact absurd rfl hx
  | null | bool | num | str | arr | ref => rfl

theorem filter_null (hx : x.kind ≠ .array) :
    (eval env (steps + 1) depth (.filter left p right o) v).outcome = .ok .null := by
  rw [eval_filter, guard_of_ok h, outcome_bind_of_ok h]
  cases x with
  | arr => exact absurd rfl hx
  | null | bool | num | str | obj | ref => rfl

end

/-- Projections are `map` without the nulls.  If the left side gives nothing but arrays, a
projection of their items ends as `map` does, with the very same failure or with the same results
but for the nulls, unless `map` reaches the limit; the same goes for the values of objects.  A
filter whose tests and results are known gives the results that are not null, on the items that pass
the test.  All three are null where the left side gives something else. -/
theorem eval_projection {env : Env}
    (hr : ∀ name, env.registry.get? name = Registry.standard.get? name) (steps depth : Nat)
    (left right p : Expr) (v : Value) (o o₁ o₂ o₃ : Nat) :
    let given := (eval env steps (depth + 1) left v).outcome
    let evaluation := fun e => eval env (steps + 1) depth e v
    let mapped := fun e => evaluation (.call "map" [.unary .reference right o₁, e] o₂)
    ((∀ x, given = .ok x → x.kind = .array) →
      EndsAs Failure.IsLimit WithoutNulls (mapped left)
        (evaluation (.binary .eachItem left right o))) ∧
    ((∀ x, given = .ok x → x.kind = .object) →
      EndsAs Failure.IsLimit WithoutNulls (mapped (.call "values" [left] o₃))
        (evaluation (.binary .eachValue left right o))) ∧
    (∀ xs (test result : Value → Value), given = .ok (.arr xs) →
      (∀ x ∈ xs, (eval env steps (depth + 1) p x).outcome = .ok (test x)) →
      (∀ x ∈ xs, (test x).isTruthy = true →
        (eval env steps (depth + 1) right x).outcome = .ok (result x)) →
      (evaluation (.filter left p right o)).outcome =
        .ok (.arr (nonNull ((xs.filter fun x => (test x).isTruthy).map result)))) ∧
    ∀ x, given = .ok x →
      (x.kind ≠ .array →
        (evaluation (.binary .eachItem left right o)).outcome = .ok .null ∧
        (evaluation (.filter left p right o)).outcome = .ok .null) ∧
      (x.kind ≠ .object → (evaluation (.binary .eachValue left right o)).outcome = .ok .null) := by
  intro given evaluation mapped
  refine ⟨?_, ?_, ?_, ?_⟩
  · intro harr
    have hleft := (persists_self (eval env steps (depth + 1) left v)).endsAs.and_ok harr
    show EndsAs _ _ (mapped left) (eval env (steps + 1) depth (.binary .eachItem left right o) v)
    rw [eval_eachItem]
    refine endsAs_map hr (hleft.imp ?_)
    rintro x _ ⟨rfl, hk⟩
    cases x with
    | arr xs => exact ⟨xs, rfl, rfl⟩
    | null | bool | num | str | obj | ref => cases hk
  · intro hobj
    show EndsAs _ _ (mapped (.call "values" [left] o₃))
      (eval env (steps + 1) depth (.binary .eachValue left right o) v)
    rw [eval_eachValue]
    refine endsAs_map hr ((endsAs_values hr hobj).imp ?_)
    rintro x b ⟨es, rfl, rfl⟩
    exact ⟨es.map Prod.snd, rfl, rfl⟩
  · intro xs test result harr htest hresult
    show (eval env (steps + 1) depth (.filter left p right o) v).outcome = _
    rw [eval_filter, guard_of_ok harr, outcome_bind_of_ok harr]
    dsimp only
    rw [outcome_bind_of_ok (keepTruthy_outcome htest)]
    refine project_outcome ?_
    intro x hx
    exact hresult x (List.mem_filter.mp hx).1 (List.mem_filter.mp hx).2
  · intro x hx
    refine ⟨fun hk => ⟨eachItem_null hx hk, filter_null hx hk⟩, fun hk => eachValue_null hx hk⟩

/-- A right side that is null on one item, and one that fails on it: `a[*].b` and
`a.*.length(b)`. -/
theorem eval_projection_null_item :
    let env : Env := ⟨[], .standard, 8, .alike⟩
    let entries : Entries Value := [("x", .obj [("b", .str "t")]), ("y", .obj [])]
    let v : Value := .obj [("a", .arr (entries.map Prod.snd)), ("o", .obj entries)]
    let items : Expr := .atom (.field "a") 0
    let values : Expr := .atom (.field "o") 0
    let field : Expr := .atom (.field "b") 5
    let length : Expr := .call "length" [field] 3
    let outcome (e : Expr) := (eval env 9 0 e v).outcome
    (∀ name, env.registry.get? name = Registry.standard.get? name) ∧
      outcome (.call "map" [.unary .reference field 7, items] 6) = .ok (.arr [.str "t", .null]) ∧
      outcome (.binary .eachItem items field 1) = .ok (.arr [.str "t"]) ∧
      outcome (.filter items field field 1) = .ok (.arr [.str "t"]) ∧
      ∃ f, ¬ f.IsLimit ∧
        outcome (.call "map" [.unary .reference length 7, .call "values" [values] 8] 6) =
          .error f ∧
        outcome (.binary .eachValue values length 1) = .error f := by
  intro env entries v items values field length outcome
  have hr : ∀ name, env.registry.get? name = Registry.standard.get? name := fun _ => rfl
  have hitems : (eval env 8 1 items v).outcome = .ok (.arr (entries.map Prod.snd)) := rfl
  have hvalues : (eval env 8 1 values v).outcome = .ok (.obj entries) := rfl
  have hmapped : outcome (.call "map" [.unary .reference field 7, items] 6) =
      .ok (.arr [.str "t", .null]) := rfl
  let f : Failure := .problem (.invalidType "length" 0 "string|array|object" "null") 3
  have hfails : outcome (.call "map" [.unary .reference length 7, .call "values" [values] 8] 6) =
      .error f := rfl
  obtain ⟨heach, -, hfilter, -⟩ := eval_projection hr 8 0 items field field v 1 7 6 8
  obtain ⟨-, hvalue, -, -⟩ := eval_projection hr 8 0 values length field v 1 7 6 8
  refine ⟨hr, hmapped, ?_, ?_, f, nofun, hfails, ?_⟩
  · have hkind : ∀ x, (eval env 8 1 items v).outcome = .ok x → x.kind = .array := by
      intro x hx
      cases hitems.symm.trans hx
      rfl
    obtain ⟨_, hprojected, ys, hys, rfl⟩ := (heach hkind).ok hmapped
    cases hys
    exact hprojected
  · exact hfilter _ (fun x => x.getField "b") (fun x => x.getField "b") hitems
      (fun _ _ => rfl) fun _ _ _ => rfl
  · have hkind : ∀ x, (eval env 8 1 values v).outcome = .ok x → x.kind = .object := by
      intro x hx
      cases hvalues.symm.trans hx
      rfl
    exact (hvalue hkind).error hfails nofun

end JsonQuery
