/-
The order of keys does not matter to evaluations.

On two values that are each other with their keys in another order, an expression goes the same
way, as long as none of its nodes tells the order: no projection of the values of an object, and no
call of a function that does.  Comparisons do go through the keys of objects in their order, so
one of the two evaluations may exhaust the stack where the other does not.

* `Expr.TellsOrder` — a node tells the order of keys;
* `Likeness.ofReordered` — being a value with its keys in another order is a likeness;
* `Likeness.reordered_compares` — comparisons that find an answer find the same one;
* `eval_reordered` — evaluations concur when no node tells the order.
-/
import JsonQuery.Proofs.Comparison
import JsonQuery.Proofs.Eval.Keep
import JsonQuery.Proofs.Eval.Step
import JsonQuery.Proofs.Function.Keep

namespace JsonQuery

open Run

/-- A node tells the order of keys: it goes through the values of an object, or calls a function
that tells their order. -/
inductive Expr.TellsOrder : Expr → Prop
  | eachValue {a b o} : TellsOrder (.binary .eachValue a b o)
  | call {s name args o} : s ∈ Builtin.tellOrder → Text.ofString s = name →
    TellsOrder (.call name args o)

/-- Being a value with its keys in another order is a likeness. -/
def Likeness.ofReordered (body : Expr → Expr → Prop) : Likeness where
  exact := False
  body := body
  value := Data.Reordered body
  entries := Entries.Reordered (Data.Reordered body)
  built := by
    intro x y
    constructor
    · intro h
      cases h with
      | null => exact .null
      | bool => exact .bool
      | num h => exact .num h nofun
      | str => exact .str
      | arr hlen h => exact .arr (Data.reordered_arr_iff.mp (.arr hlen h))
      | obj he hf hkeys h => exact .obj (Data.reordered_obj_iff.mp (.obj he hf hkeys h))
      | ref hb h => exact .ref hb h
    · intro h
      cases h with
      | null => exact .null
      | bool => exact .bool
      | num h _ => exact .num h
      | str => exact .str
      | arr h => exact Data.reordered_arr_iff.mpr h
      | obj h => exact Data.reordered_obj_iff.mpr h
      | ref hb h => exact .ref hb h
  get? h := h.get?
  length_eq h := h.length_eq
  nil := .nil
  insert h hx k := h.insert hx k
  update h h' := h.update h'

/-- So it is with nodes of a tree in the references. -/
def Likeness.reordered (root : Expr) : Likeness :=
  .ofReordered root.Shared

/-- A document and another one that is the same but for the order of keys are such values. -/
theorem Value.reordered_of_same {j j' : Json} (h : Json.same j j' = true) (hj : j.DistinctKeys)
    (hj' : j'.DistinctKeys) (root : Expr) :
    Data.Reordered root.Shared (Data.ofJson j) (Data.ofJson j') :=
  (Data.reordered_of_same h hj hj').mapRef fun {b} _ => b.elim

/-- A document is such a value of itself. -/
theorem Value.reordered_ofJson {j : Json} (hj : j.DistinctKeys) (root : Expr) :
    Data.Reordered root.Shared (Data.ofJson j) (Data.ofJson j) := by
  have h : Data.Reordered Eq j j := Data.reordered_self (fun _ => rfl) j hj
  exact h.mapRef fun {b} _ => b.elim

/-- A value that refers to nodes of a tree has distinct keys throughout, if the literals of the tree
have. -/
theorem Value.wellKeyed_of_reordered {root : Expr} (hlit : root.DistinctLiterals) {x y : Value}
    (h : Data.Reordered root.Shared x y) : x.WellKeyed := by
  refine h.wellKeyed ?_
  rintro b c ⟨-, hb⟩
  exact hlit.node hb

theorem Expr.Shared.symm {root b c : Expr} (h : root.Shared b c) : root.Shared c b := by
  obtain ⟨rfl, hb⟩ := h
  exact ⟨rfl, hb⟩

/-- Comparisons that find an answer find the same one, whatever the order of keys and whatever is
one object. -/
theorem Likeness.reordered_compares {root : Expr} (hlit : root.DistinctLiterals)
    (shared shared' : Sharing) :
    (Likeness.reordered root).Compares concurrence shared shared' := by
  intro x x' y y' hx hy
  have wellKeyed {u w : Value} (h : Data.Reordered root.Shared u w) :
      u.WellKeyed ∧ w.WellKeyed :=
    ⟨Value.wellKeyed_of_reordered hlit h, Value.wellKeyed_of_reordered hlit (h.symm .symm)⟩
  have hsame : Value.same x y = Value.same x' y' := by
    refine hx.same_eq ?_ hy
    rintro b _ c _ ⟨rfl, -⟩ ⟨rfl, -⟩
    rfl
  rw [Run.equal, Run.equal]
  cases h : Value.equal? shared x y with
  | none => exact .inl rfl
  | some answer =>
    cases h' : Value.equal? shared' x' y' with
    | none => exact .inr (.inl rfl)
    | some answer' =>
      have ha := Value.same_of_equal? (wellKeyed hx).1 (wellKeyed hy).1 h
      have ha' := Value.same_of_equal? (wellKeyed hx).2 (wellKeyed hy).2 h'
      exact concurrence.pure (ha.symm.trans (hsame.trans ha'))

/-- Evaluations and calls in two environments concur on values with their keys in another order. -/
structure ReorderedAt (root : Expr) (env env' : Env) (steps : Nat) : Prop where
  eval : ∀ ⦃d e v v'⦄, e ∈ root.walk → Data.Reordered root.Shared v v' →
    Concur (Data.Reordered root.Shared) (eval env steps d e v) (eval env' steps d e v')
  invoke : ∀ ⦃d o name xs xs'⦄, (∀ s ∈ Builtin.tellOrder, Text.ofString s ≠ name) →
    List.Forall₂ (Data.Reordered root.Shared) xs xs' →
    Concur (Data.Reordered root.Shared) (invoke env steps d o name xs)
      (invoke env' steps d o name xs')

section
variable {root : Expr} {env env' : Env} {steps d : Nat} {v v' : Value}
  (ih : ReorderedAt root env env' steps) (hlit : root.DistinctLiterals)
include ih hlit

theorem invoke_reordered (hr : env.registry = .standard) (hr' : env'.registry = .standard)
    {o : Int} {name : Text} {xs xs' : List Value}
    (hname : ∀ s ∈ Builtin.tellOrder, Text.ofString s ≠ name)
    (hx : List.Forall₂ (Data.Reordered root.Shared) xs xs') :
    Concur (Data.Reordered root.Shared) (invoke env (steps + 1) d o name xs)
      (invoke env' (steps + 1) d o name xs') := by
  let R := concurrence
  let L := Likeness.reordered root
  refine rel_invoke (R := R) (L := L) (A := L) (hr.trans hr'.symm) rfl hx ?_
  intro f hf
  rw [hr] at hf
  have hkeeps : f.Keeps R L :=
    Registry.standard_keeps (fun ⟨s, hs, h⟩ => absurd h (hname s hs)) hf
  refine hkeeps ⟨rfl, Likeness.reordered_compares hlit _ _, ?_⟩ hx
  rintro e _ x x' ⟨rfl, he⟩ hx
  exact ih.eval he hx

theorem eval_succ_reordered (hl : env.limit = env'.limit)
    (hsilent : ∀ n ∈ root.walk, ¬ n.TellsOrder) {e : Expr} (he : e ∈ root.walk)
    (hv : Data.Reordered root.Shared v v') :
    Concur (Data.Reordered root.Shared) (eval env (steps + 1) d e v)
      (eval env' (steps + 1) d e v') := by
  let R := concurrence
  let L := Likeness.reordered root
  have hsub : ∀ ⦃c c' x x'⦄, root.Shared c c' → L.value x x' →
      R.rel L.value (eval env steps (d + 1) c x) (eval env' steps (d + 1) c' x') := by
    rintro c _ x x' ⟨rfl, hc⟩ hx
    exact ih.eval hc hx
  have hg : ∀ o, R.Guards L.value env env' d d o o := by
    intro o x y h
    rw [Env.guard, Env.guard, hl]
    split
    · exact .inr (.inr ⟨rfl, .error _⟩)
    · exact h
  -- All operands of a node of the tree are nodes of the tree.
  have near : ∀ c ∈ e.children, root.Shared c c :=
    fun c hc => ⟨rfl, Expr.mem_walk_of_mem_children he hc⟩
  have hbody : ∀ {b o}, e = .unary .reference b o → L.body b b := by
    rintro b o rfl
    exact near b (List.mem_singleton_self b)
  have hliteral : ∀ {j o}, e = .atom (.literal j) o → L.value (Data.ofJson j) (Data.ofJson j) := by
    rintro j o rfl
    exact Value.reordered_ofJson (hlit he) root
  have hvalues : ∀ {a b o}, e = .binary .eachValue a b o → L.Ordered := by
    rintro a b o rfl
    exact absurd .eachValue (hsilent _ he)
  cases e with
  | call name args o =>
    refine rel_call (R := R) (L := L) rfl (hg _) (List.forall₂_same.mpr near)
      (fun _ _ hc => hsub hc hv) ?_
    intro xs xs' hx
    refine ih.invoke ?_ hx
    intro s hs hname
    exact hsilent _ he (.call hs hname)
  | atom | unary | binary | filter | list | hash =>
    refine Expr.Paired.rel_eval hsub ?_ (Likeness.reordered_compares hlit _ _) (hg _) hv
    exact Expr.paired_self nofun (fun _ => rfl) near hbody hliteral hvalues

end

/-- Evaluations of the nodes of a tree, none of which tells the order of keys, concur on values with
their keys in another order. -/
theorem eval_reordered {root : Expr} {env env' : Env} (hr : env.registry = .standard)
    (hr' : env'.registry = .standard) (hl : env.limit = env'.limit)
    (hlit : root.DistinctLiterals) (hsilent : ∀ n ∈ root.walk, ¬ n.TellsOrder) (steps : Nat) :
    ReorderedAt root env env' steps := by
  induction steps with
  | zero =>
    constructor
    · intro d e v v' _ _
      rw [eval]
      exact .inl rfl
    · intro d o name xs xs' _ _
      rw [invoke]
      exact .inl rfl
  | succ steps ih =>
    constructor
    · intro d e v v' he hv
      exact eval_succ_reordered ih hlit hl hsilent he hv
    · intro d o name xs xs' hname hx
      exact invoke_reordered ih hlit hr hr' hname hx

end JsonQuery
