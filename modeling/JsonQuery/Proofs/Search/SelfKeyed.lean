/-
Ordering items that are their own keys.

`sort`, `max` and `min` ask of their argument that it is an array of numbers or one of strings.
`sort_by`, `max_by` and `min_by` with the reference `&@` find out while they go through the items
whether these are keys of one kind.  Both accept the same values and make the same of them.

* `Builtin.invoke_byKey_iff`, `Builtin.invoke_bySelf_iff` — when a call has a result, and which;
* `search_selfKeyed` — searches with the one and the other function.
-/
import JsonQuery.Proofs.Compile
import JsonQuery.Proofs.Function.ByKey

namespace JsonQuery

open Run Builtin

namespace Builtin
variable {env : Env} {name s : Text} {f : Keyed → Value} {output : ParameterType} {v w : Value}
  {key : Value → SortKey} {kind : Kind} {xs : List Value}

/-- What is made of an array by the keys that an evaluation gives for its items. -/
def OrdersBy (evaluate : Value → Run Value) (f : Keyed → Value) (v w : Value) : Prop :=
  ∃ xs key kind, v = .arr xs ∧ KeyedBy evaluate key kind xs ∧ w = f (xs.map fun x => (key x, x))

/-- A call that orders items by the results of an expression has a result exactly when these are
keys of one kind. -/
theorem invoke_byKey_iff
    (hf : env.registry.get? name = some ⟨fixed [.one .array, .one .expref] output, byKey s f⟩)
    {steps depth : Nat} {offset : Int} {body : Expr} {context : Value} :
    (invoke env (steps + 1) depth offset name [v, .ref body context]).outcome = .ok w ↔
      OrdersBy (eval env steps depth body) f v w := by
  constructor
  · intro hw
    cases v with
    | arr xs =>
      by_cases hk : ∃ key kind, KeyedBy (eval env steps depth body) key kind xs
      · obtain ⟨key, kind, hk⟩ := hk
        rw [invoke_byKey_outcome hf hk] at hw
        cases hw
        exact ⟨xs, key, kind, rfl, hk, rfl⟩
      · obtain ⟨pre, x, post, key, kind, rfl, hpre, hx⟩ := exists_unordered hk
        obtain ⟨e, hx⟩ := hx s offset
        rw [invoke_byKey_error hf hpre hx] at hw
        cases hw
    | null | bool | num | str | obj | ref =>
      rw [invoke, hf] at hw
      cases hw
  · rintro ⟨xs, key, kind, rfl, hk, rfl⟩
    exact invoke_byKey_outcome hf hk offset context

theorem KeyedBy.eq_keyValue (h : KeyedBy Pure.pure key kind xs) {x : Value} (hx : x ∈ xs) :
    keyValue (key x) = x :=
  (Except.ok.inj (h x hx).1).symm

theorem accepts_orderable_arr :
    orderable.accepts (.arr xs) = true ↔
      (∀ x ∈ xs, x.kind = .number) ∨ ∀ x ∈ xs, x.kind = .string := by
  simp only [orderable, ParameterType.accepts, ParameterType.acceptsAny, ArgumentType.accepts,
    Data.isArrayOf, Bool.or_false, Bool.or_eq_true, List.all_eq_true, beq_iff_eq]

theorem kind_keyValue (key : SortKey) : (keyValue key).kind = key.kind := by
  cases key <;> rfl

/-- Items may be ordered exactly when they are keys of one kind. -/
theorem accepts_orderable_iff :
    orderable.accepts v = true ↔ ∃ xs key kind, v = .arr xs ∧ KeyedBy Pure.pure key kind xs := by
  constructor
  · intro h
    obtain ⟨keys, rfl, kind, hkind⟩ := accepts_orderable h
    refine ⟨_, keyOf Pure.pure, kind, rfl, ?_⟩
    intro x hx
    obtain ⟨key, hkey, rfl⟩ := List.mem_map.mp hx
    rw [keyOf_eq rfl]
    exact ⟨rfl, hkind key hkey⟩
  · rintro ⟨xs, key, kind, rfl, h⟩
    have hkind : ∀ x ∈ xs, x.kind = kind := by
      intro x hx
      rw [← h.eq_keyValue hx, kind_keyValue, (h x hx).2]
    rw [accepts_orderable_arr]
    cases xs with
    | nil => simp
    | cons x xs =>
      have hx := (h x List.mem_cons_self).2
      cases hk : key x with
      | number =>
        rw [hk] at hx
        exact .inl fun y hy => (hkind y hy).trans hx.symm
      | text =>
        rw [hk] at hx
        exact .inr fun y hy => (hkind y hy).trans hx.symm

theorem bySelf_outcome (h : KeyedBy Pure.pure key kind xs) (c : Call) :
    (bySelf f c [.arr xs]).outcome = .ok (f (xs.map fun x => (key x, x))) := by
  have hkeys : (xs.map key).map keyValue = xs := by
    rw [List.map_map]
    exact (List.map_congr_left fun x hx => h.eq_keyValue hx).trans (List.map_id xs)
  have hpairs : ((xs.map key).map fun k => (k, keyValue k)) = xs.map fun x => (key x, x) := by
    rw [List.map_map]
    exact List.map_congr_left fun x hx => congrArg (key x, ·) (h.eq_keyValue hx)
  have hitems := mapM_map selfKeyed_keyValue (xs.map key)
  rw [hkeys, hpairs] at hitems
  simp only [bySelf, unary, need_items, pure_bind, hitems]
  rw [ordering_keyed f h]
  rfl

/-- A call that orders items that are their own keys has a result exactly when these are keys of
one kind. -/
theorem invoke_bySelf_iff
    (hf : env.registry.get? name = some ⟨fixed [orderable] output, bySelf f⟩)
    {steps depth : Nat} {offset : Int} :
    (invoke env (steps + 1) depth offset name [v]).outcome = .ok w ↔ OrdersBy Pure.pure f v w := by
  have hcheck : (fixed [orderable] output).check name [v] =
      if orderable.accepts v then .ok ()
      else .error (.invalidType name 0 orderable.text (Text.ofString v.kind.name)) := rfl
  rw [invoke, hf]
  simp only [hcheck]
  constructor
  · intro hw
    by_cases ha : orderable.accepts v = true
    · obtain ⟨xs, key, kind, rfl, h⟩ := accepts_orderable_iff.mp ha
      rw [if_pos ha] at hw
      dsimp only at hw
      rw [bySelf_outcome h] at hw
      cases hw
      exact ⟨xs, key, kind, rfl, h, rfl⟩
    · rw [if_neg ha] at hw
      cases hw
  · rintro ⟨xs, key, kind, rfl, h, rfl⟩
    rw [if_pos (accepts_orderable_iff.mpr ⟨xs, key, kind, rfl, h⟩)]
    exact bySelf_outcome h _

end Builtin

/-! ### Evaluations -/

section
variable {env : Env} {steps depth : Nat} {name s : Text} {args : List Expr} {o : Nat}
  {f : Keyed → Value} {output : ParameterType} {v w : Value}

/-- A call whose first argument is `@` has the result of the function if there is a level for its
arguments, and none otherwise. -/
theorem eval_call_current {o' : Nat} {xs : List Value}
    (hargs : (depth + 2 : Int) ≤ env.limit →
      ((.atom .current o' :: args).mapM fun e => eval env (steps + 1) (depth + 1) e v) =
        Pure.pure xs) :
    (eval env (steps + 2) depth (.call name (.atom .current o' :: args) o) v).outcome = .ok w ↔
      (depth + 2 : Int) ≤ env.limit ∧
        (invoke env (steps + 1) (depth + 1) o name xs).outcome = .ok w := by
  by_cases hd : (depth + 2 : Int) ≤ env.limit
  · rw [eval, if_neg (by omega), hargs hd, pure_bind, outcome_afterCall]
    simp [hd]
  · have hfails : ∃ f, (eval env (steps + 2) depth
        (.call name (.atom .current o' :: args) o) v).outcome = .error f := by
      by_cases hlow : env.limit < (depth + 1 : Int)
      · rw [eval, if_pos hlow]
        exact ⟨_, rfl⟩
      · have harg : (eval env (steps + 1) (depth + 1) (.atom .current o') v).outcome =
            .error (.problem (.recursionLimit env.limit) o') := by
          rw [eval, if_pos (by omega)]
          rfl
        rw [eval, if_neg hlow, List.mapM_cons]
        exact ⟨_, outcome_bind_of_error (outcome_bind_of_error harg)⟩
    obtain ⟨f, hf⟩ := hfails
    rw [hf]
    simp [hd]

theorem eval_bySelf_iff
    (hf : env.registry.get? name = some ⟨fixed [orderable] output, bySelf f⟩) {o' : Nat} :
    (eval env (steps + 2) depth (.call name [.atom .current o'] o) v).outcome = .ok w ↔
      (depth + 2 : Int) ≤ env.limit ∧ OrdersBy Pure.pure f v w := by
  have hargs (hd : (depth + 2 : Int) ≤ env.limit) :
      ([.atom .current o'].mapM fun e => eval env (steps + 1) (depth + 1) e v) =
        Pure.pure [v] := by
    rw [List.mapM_cons, eval_current (by omega)]
    simp
  rw [eval_call_current hargs, invoke_bySelf_iff hf]

theorem eval_byKey_iff
    (hf : env.registry.get? name = some ⟨fixed [.one .array, .one .expref] output, byKey s f⟩)
    {o₁ o₂ o₃ : Nat} :
    (eval env (steps + 3) depth (.call name [.atom .current o₁,
        .unary .reference (.atom .current o₂) o₃] o) v).outcome = .ok w ↔
      (depth + 2 : Int) ≤ env.limit ∧ OrdersBy Pure.pure f v w := by
  have hargs (hd : (depth + 2 : Int) ≤ env.limit) :
      ([.atom .current o₁, .unary .reference (.atom .current o₂) o₃].mapM
        fun e => eval env (steps + 2) (depth + 1) e v) =
        Pure.pure [v, .ref (.atom .current o₂) v] := by
    rw [List.mapM_cons, List.mapM_cons, eval_current (by omega), eval_reference (by omega)]
    simp
  rw [eval_call_current hargs]
  refine and_congr_right ?_
  intro hd
  have hself : eval env (steps + 1) (depth + 1) (.atom .current o₂) = Pure.pure :=
    funext fun _ => eval_current (by omega)
  rw [invoke_byKey_iff hf, hself]

end

/-! ### Searches -/

/-- Two sources compile, and searches with them have the same results. -/
def SameResults (limit : Int) (source source' : Text) : Prop :=
  ∃ p q, Query.compile source none limit = .ok p ∧ Query.compile source' none limit = .ok q ∧
    ∀ v w shared, p.search v shared = .ok w ↔ q.search v shared = .ok w

/-- A search with a source that is read has the results of the evaluation of its tree. -/
theorem exists_evaluating_query {source : Text} {limit : Int} {e : Expr} (hl : 1 ≤ limit)
    (h : Expr.parse source = .ok e) :
    ∃ q, Query.compile source none limit = .ok q ∧
      ∀ shared, (q.env shared).registry = .standard ∧ (q.env shared).limit = limit ∧
        ∀ v w, q.search v shared = .ok w ↔
          (eval (q.env shared) nestingLimit 0 e v).outcome = .ok w :=
  ⟨⟨source, some e, none, limit, hl⟩, Query.compile_eq_ok.mpr ⟨e, h, hl, rfl⟩,
    fun _ => ⟨rfl, rfl, fun _ _ => mapError_eq_ok⟩⟩

theorem sameResults_selfKeyed {limit : Int} (hl : 1 ≤ limit) {source source' : Text}
    {name name' s : Text} {f : Keyed → Value} {output output' : ParameterType}
    {o o₁ o₂ o₃ o₄ o₅ : Nat}
    (h : Expr.parse source = .ok (.call name [.atom .current o] o₁))
    (h' : Expr.parse source' = .ok
      (.call name' [.atom .current o₂, .unary .reference (.atom .current o₃) o₄] o₅))
    (hf : Registry.standard.get? name = some ⟨fixed [orderable] output, bySelf f⟩)
    (hf' : Registry.standard.get? name' =
      some ⟨fixed [.one .array, .one .expref] output', byKey s f⟩) :
    SameResults limit source source' := by
  obtain ⟨p, hp, heval⟩ := exists_evaluating_query hl h
  obtain ⟨q, hq, heval'⟩ := exists_evaluating_query hl h'
  obtain ⟨steps, hsteps⟩ : ∃ steps, nestingLimit = steps + 3 := ⟨477, rfl⟩
  refine ⟨p, q, hp, hq, ?_⟩
  intro v w shared
  obtain ⟨hreg, hlimit, hsearch⟩ := heval shared
  obtain ⟨hreg', hlimit', hsearch'⟩ := heval' shared
  rw [← hreg] at hf
  rw [← hreg'] at hf'
  rw [hsearch, hsearch', hsteps, eval_bySelf_iff hf, eval_byKey_iff hf', hlimit, hlimit']

/-- Plain and keyed functions agree: on every value they have the same results, or none. -/
theorem search_selfKeyed {limit : Int} (hl : 1 ≤ limit) :
    SameResults limit "sort(@)" "sort_by(@, &@)" ∧ SameResults limit "max(@)" "max_by(@, &@)" ∧
      SameResults limit "min(@)" "min_by(@, &@)" :=
  ⟨sameResults_selfKeyed hl rfl rfl rfl rfl, sameResults_selfKeyed hl rfl rfl rfl rfl,
    sameResults_selfKeyed hl rfl rfl rfl rfl⟩

theorem search_selfKeyed_least :
    let v : Value := .arr [.str "b", .str "a", .str "b"]
    1 ≤ defaultLimit ∧ ∃ p q, Query.compile "min(@)" none defaultLimit = .ok p ∧
      Query.compile "min_by(@, &@)" none defaultLimit = .ok q ∧
      p.search v = .ok (.str "a") ∧ q.search v = .ok (.str "a") := by
  intro v
  have hl : 1 ≤ defaultLimit := by decide
  obtain ⟨-, -, p, q, hp, hq, h⟩ := search_selfKeyed hl
  have hv : p.search v = .ok (.str "a") := by
    cases hp
    rfl
  exact ⟨hl, p, q, hp, hq, hv, (h v (.str "a") .alike).mp hv⟩

end JsonQuery
