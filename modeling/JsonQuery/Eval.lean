/-
Evaluating expressions.

An expression is evaluated on a current value, node by node.  Two bounds apply: the limit of the
query on the number of nodes that are evaluated one inside the other, and the number of pending
steps, evaluations and calls, that there may be at all.

* `eval` — the value of an expression on a value;
* `invoke` — a call of a function by its name;
* `invoke_eq_call`, `invoke_eq_body` — which is what the function does, and what its body does if
  the arguments are right.
-/
import JsonQuery.Registry

namespace JsonQuery

/-- What stays the same during an evaluation. -/
structure Env where
  source : Text
  registry : Registry
  limit : Int
  shared : Sharing

/-- The results of an evaluation on some values, without those that are null. -/
def project (f : Value → Run Value) (items : List Value) : Run Value := do
  let results ← items.mapM f
  pure (.arr (results.filter fun x => !x.isNull))

/-- The items for which an evaluation gives a true value. -/
def keepTruthy (f : Value → Run Value) : List Value → Run (List Value)
  | [] => pure []
  | x :: xs => do
    let y ← f x
    let ys ← keepTruthy f xs
    pure (if y.isTruthy then x :: ys else ys)

/-- An array whose items that are arrays are replaced by their own items. -/
def flattenItems (items : List Value) : List Value :=
  items.flatMap fun
    | .arr inner => inner
    | x => [x]

/-- The results of an evaluation on keyed expressions. -/
def mapPairs (f : Expr → Run Value) : List (Text × Expr) → Run (List (Text × Value))
  | [] => pure []
  | (k, e) :: ps => do
    let x ← f e
    let xs ← mapPairs f ps
    pure ((k, x) :: xs)

/-- A comparison of two values.  Only numbers have an order; that of others is null. -/
def Comparator.apply (shared : Sharing) (c : Comparator) (x y : Value) : Run Value :=
  match c, x, y with
  | .eq, x, y => do
    let b ← Run.equal shared x y
    pure (.bool b)
  | .ne, x, y => do
    let b ← Run.equal shared x y
    pure (.bool (!b))
  | .lt, .num x, .num y => pure (.bool (x.lt y))
  | .le, .num x, .num y => pure (.bool (x.le y))
  | .gt, .num x, .num y => pure (.bool (y.lt x))
  | .ge, .num x, .num y => pure (.bool (y.le x))
  | _, _, _ => pure .null

/-- The value of an expression without operands. -/
def Atom.eval (a : Atom) (v : Value) (offset : Nat) : Run Value :=
  match a with
  | .identity => pure v
  | .current => pure v
  | .field name => pure (v.getField name)
  | .index i => pure (v.getIndex i)
  | .slice s =>
    if s.step = some 0 then Run.fail (.problem .invalidSlice offset) else pure (v.slice s)
  | .literal j => pure (Data.ofJson j)

mutual

/-- The value of an expression on a value, at a depth of nodes around it. -/
def eval (env : Env) : (steps : Nat) → (depth : Nat) → Expr → Value → Run Value
  | 0, _, _, _ => Run.fail .exhausted
  | steps + 1, depth, e, v =>
    if env.limit < depth + 1 then
      Run.fail (.problem (.recursionLimit env.limit) e.offset)
    else
      match e with
      | .atom a offset => a.eval v offset
      | .unary .flatten a _ => do
        let x ← eval env steps (depth + 1) a v
        match x with
        | .arr items => pure (.arr (flattenItems items))
        | _ => pure .null
      | .unary .not a _ => do
        let x ← eval env steps (depth + 1) a v
        pure (.bool (!x.isTruthy))
      | .unary .reference a _ => pure (.ref a v)
      | .binary .eachItem a b _ => do
        let x ← eval env steps (depth + 1) a v
        match x with
        | .arr items => project (eval env steps (depth + 1) b) items
        | _ => pure .null
      | .binary .eachValue a b _ => do
        let x ← eval env steps (depth + 1) a v
        match x with
        | .obj entries => project (eval env steps (depth + 1) b) (entries.map Prod.snd)
        | _ => pure .null
      | .binary .pipe a b _ => do
        let x ← eval env steps (depth + 1) a v
        eval env steps (depth + 1) b x
      | .binary .step a b _ => do
        let x ← eval env steps (depth + 1) a v
        eval env steps (depth + 1) b x
      | .binary .and a b _ => do
        let x ← eval env steps (depth + 1) a v
        if x.isTruthy then eval env steps (depth + 1) b v else pure x
      | .binary .or a b _ => do
        let x ← eval env steps (depth + 1) a v
        if x.isTruthy then pure x else eval env steps (depth + 1) b v
      | .binary (.compare c) a b _ => do
        let x ← eval env steps (depth + 1) a v
        let y ← eval env steps (depth + 1) b v
        c.apply env.shared x y
      | .filter a p b _ => do
        let x ← eval env steps (depth + 1) a v
        match x with
        | .arr items => do
          let kept ← keepTruthy (eval env steps (depth + 1) p) items
          project (eval env steps (depth + 1) b) kept
        | _ => pure .null
      | .list es _ =>
        if v.isNull then pure .null
        else do
          let xs ← es.mapM fun e => eval env steps (depth + 1) e v
          pure (.arr xs)
      | .hash ps _ =>
        if v.isNull then pure .null
        else do
          let xs ← mapPairs (fun e => eval env steps (depth + 1) e v) ps
          pure (.obj (Entries.ofList xs))
      | .call name args offset => do
        let xs ← args.mapM fun e => eval env steps (depth + 1) e v
        (invoke env steps (depth + 1) offset name xs).afterCall offset

/-- A call of a function by its name, at a depth of nodes around it. -/
def invoke (env : Env) : (steps : Nat) → (depth : Nat) → (offset : Int) → (name : Text) →
    List Value → Run Value
  | 0, _, _, _, _ => Run.fail .exhausted
  | steps + 1, depth, offset, name, args =>
    match env.registry.get? name with
    | none => Run.fail (.problem (.unknownFunction name) offset)
    | some f =>
      match f.signature.check name args with
      | .error p => Run.fail (.problem p offset)
      | .ok () =>
        f.body
          { source := env.source
            depth := depth
            limit := env.limit
            offset := offset
            evaluate := eval env steps depth
            invoke := invoke env steps depth
            shared := env.shared } args

end

theorem eval_atom {env : Env} {depth : Nat} (hd : (depth + 1 : Int) ≤ env.limit) (steps : Nat)
    (a : Atom) (offset : Nat) (v : Value) :
    eval env (steps + 1) depth (.atom a offset) v = a.eval v offset := by
  rw [eval, if_neg (by omega)]

theorem eval_current {env : Env} {steps depth offset : Nat} {v : Value}
    (hd : (depth + 1 : Int) ≤ env.limit) :
    eval env (steps + 1) depth (.atom .current offset) v = Pure.pure v :=
  eval_atom hd steps .current offset v

theorem eval_reference {env : Env} {steps depth offset : Nat} {body : Expr} {v : Value}
    (hd : (depth + 1 : Int) ≤ env.limit) :
    eval env (steps + 1) depth (.unary .reference body offset) v = Pure.pure (.ref body v) := by
  rw [eval, if_neg (by omega)]

/-- What a function does when it is called by a name: its arguments are checked first. -/
def Function.call (f : Function) (name : Text) (c : Call) (args : List Value) : Run Value :=
  match f.signature.check name args with
  | .error p => Run.fail (.problem p c.offset)
  | .ok () => f.body c args

theorem invoke_eq_call {env : Env} {name : Text} {f : Function}
    (hf : env.registry.get? name = some f) (steps depth : Nat) (offset : Int) (args : List Value) :
    invoke env (steps + 1) depth offset name args =
      f.call name ⟨env.source, depth, env.limit, offset, eval env steps depth,
        invoke env steps depth, env.shared⟩ args := by
  rw [invoke, hf]
  rfl

/-- A call whose arguments pass the check of the function is what its body does. -/
theorem invoke_eq_body {env : Env} {name : Text} {f : Function} {args : List Value}
    (hf : env.registry.get? name = some f) (hc : f.signature.check name args = .ok ())
    (steps depth : Nat) (offset : Int) :
    invoke env (steps + 1) depth offset name args =
      f.body ⟨env.source, depth, env.limit, offset, eval env steps depth,
        invoke env steps depth, env.shared⟩ args := by
  rw [invoke_eq_call hf, Function.call, hc]

end JsonQuery
