/-
Calls that are checked before they are made.

A call by a name looks for the function first, then at the number of its arguments, then at their
types from the first argument on.  The first fault that it finds is told, and if there is none the
body of the function gets these very arguments.

* `ParameterType.Allows` — the values of a type: those of one of the types that it is made of;
* `Signature.Miscounts`, `Signature.Refuses` — what may be wrong with the arguments of a call;
* `Signature.check_eq_ok_iff`, `Signature.check_eq_error_iff` — which of it is told;
* `Registry.dispatch` — the function that a call runs, or the fault that it has;
* `invoke_dispatch` — a call does what is found for it, and the faults are told exactly.
-/
import Mathlib.Data.List.Basic
import JsonQuery.Eval

namespace JsonQuery

/-! ### The values of a type -/

theorem Kind.name_injective {k l : Kind} (h : k.name = l.name) : k = l := by
  revert h
  cases k <;> cases l <;> decide

/-- The values that a type without alternatives stands for: an array of numbers or of strings has
no other items, and else the kind of the value is the one that the type is called after. -/
def ArgumentType.Allows (v : Value) : ArgumentType → Prop
  | .any => True
  | .arrayNumber => ∃ items, v = .arr items ∧ ∀ x ∈ items, x.kind = .number
  | .arrayString => ∃ items, v = .arr items ∧ ∀ x ∈ items, x.kind = .string
  | t => v.kind.name = t.text

theorem Data.isArrayOf_iff {ρ : Type} {kind : Kind} {v : Data ρ} :
    v.isArrayOf kind = true ↔ ∃ items, v = .arr items ∧ ∀ x ∈ items, x.kind = kind := by
  cases v <;> simp [isArrayOf]

theorem ArgumentType.accepts_iff {t : ArgumentType} {v : Value} :
    t.accepts v = true ↔ t.Allows v := by
  have named (k : Kind) : (v.kind == k) = true ↔ v.kind.name = k.name := by
    rw [beq_iff_eq]
    exact ⟨congrArg Kind.name, Kind.name_injective⟩
  cases t with
  | any => simp [accepts, Allows]
  | arrayNumber => exact Data.isArrayOf_iff
  | arrayString => exact Data.isArrayOf_iff
  | array => exact named .array
  | boolean => exact named .boolean
  | expref => exact named .expref
  | number => exact named .number
  | object => exact named .object
  | string => exact named .string
  | null => exact named .null

namespace ParameterType

/-- The types without alternatives that a type is made of, however its unions are nested. -/
inductive HasOption : ParameterType → ArgumentType → Prop
  | one {a} : HasOption (.one a) a
  | union {options t a} : t ∈ options → HasOption t a → HasOption (.union options) a

/-- The values of a type: those of one of its alternatives. -/
def Allows (v : Value) (t : ParameterType) : Prop :=
  ∃ a, t.HasOption a ∧ a.Allows v

theorem allows_one {v : Value} {a : ArgumentType} : (one a).Allows v ↔ a.Allows v := by
  constructor
  · rintro ⟨_, ⟨⟩, h⟩
    exact h
  · exact fun h => ⟨a, .one, h⟩

theorem allows_union {v : Value} {options : List ParameterType} :
    (union options).Allows v ↔ ∃ t ∈ options, t.Allows v := by
  constructor
  · rintro ⟨a, ⟨⟩ | ⟨ht, ha⟩, h⟩
    exact ⟨_, ht, a, ha, h⟩
  · rintro ⟨t, ht, a, ha, h⟩
    exact ⟨a, .union ht ha, h⟩

mutual

theorem accepts_iff {v : Value} : ∀ {t : ParameterType}, t.accepts v = true ↔ t.Allows v
  | .one a => by rw [accepts, allows_one, ArgumentType.accepts_iff]
  | .union options => by rw [accepts, allows_union, acceptsAny_iff]

theorem acceptsAny_iff {v : Value} :
    ∀ {ts : List ParameterType}, acceptsAny v ts = true ↔ ∃ t ∈ ts, t.Allows v
  | [] => by simp [acceptsAny]
  | t :: ts => by
    rw [acceptsAny, Bool.or_eq_true, @accepts_iff v t, @acceptsAny_iff v ts,
      List.exists_mem_cons_iff]

end

end ParameterType

/-! ### The faults of the arguments -/

namespace Signature
variable {s : Signature} {name : Text} {args : List Value}

/-- The type that is asked of a position: that of the input there, and behind the last input that of
further arguments. -/
inductive Asks (s : Signature) : Nat → ParameterType → Prop
  | input {i t} : s.inputs[i]? = some t → s.Asks i t
  | further {i t} : s.inputs.length ≤ i → s.variadic = some t → s.Asks i t

theorem expected?_eq_some {i : Nat} {t : ParameterType} : s.expected? i = some t ↔ s.Asks i t := by
  rw [expected?]
  split
  · next u hu =>
    constructor
    · rintro ⟨⟩
      exact .input hu
    · rintro (ht | ⟨hi, -⟩)
      · rw [← hu, ht]
      · rw [List.getElem?_eq_none hi] at hu
        cases hu
  · next hu =>
    constructor
    · exact .further (List.getElem?_eq_none_iff.mp hu)
    · rintro (ht | ⟨-, ht⟩)
      · rw [hu] at ht
        cases ht
      · exact ht

/-- There are fewer arguments than inputs, or more and no further ones may be given. -/
def Miscounts (s : Signature) (args : List Value) : Prop :=
  args.length < s.inputs.length ∨ s.variadic = none ∧ s.inputs.length < args.length

/-- An argument is not of the type that is asked of its place, where the first argument of a list
has the place `first`. -/
structure Refuses (s : Signature) (first : Nat) (args : List Value) (i : Nat)
    (t : ParameterType) (v : Value) : Prop where
  getElem? : args[i]? = some v
  asks : s.Asks (first + i) t
  not_allows : ¬ t.Allows v

theorem refuses_cons_zero {first : Nat} {x v : Value} {xs : List Value} {t : ParameterType} :
    s.Refuses first (x :: xs) 0 t v ↔ v = x ∧ s.Asks first t ∧ ¬ t.Allows x := by
  constructor
  · rintro ⟨⟨⟩, ha, hn⟩
    exact ⟨rfl, ha, hn⟩
  · rintro ⟨rfl, ha, hn⟩
    exact ⟨rfl, ha, hn⟩

theorem refuses_cons_succ {first i : Nat} {x v : Value} {xs : List Value} {t : ParameterType} :
    s.Refuses first (x :: xs) (i + 1) t v ↔ s.Refuses (first + 1) xs i t v := by
  have hplace : first + (i + 1) = first + 1 + i := by omega
  constructor
  · rintro ⟨hv, ha, hn⟩
    exact ⟨hv, hplace ▸ ha, hn⟩
  · rintro ⟨hv, ha, hn⟩
    exact ⟨hv, hplace ▸ ha, hn⟩

/-- The first argument that is refused. -/
structure RefusesFirst (s : Signature) (first : Nat) (args : List Value) (i : Nat)
    (t : ParameterType) (v : Value) : Prop where
  refuses : s.Refuses first args i t v
  least : ∀ j < i, ∀ t v, ¬ s.Refuses first args j t v

theorem RefusesFirst.unique {first i j : Nat} {t u : ParameterType} {v w : Value}
    (h : s.RefusesFirst first args i t v) (h' : s.RefusesFirst first args j u w) :
    i = j ∧ t = u ∧ v = w := by
  obtain rfl : i = j :=
    Nat.le_antisymm (Nat.le_of_not_lt fun hlt => h.least j hlt u w h'.refuses)
      (Nat.le_of_not_lt fun hlt => h'.least i hlt t v h.refuses)
  have ht := expected?_eq_some.mpr h.refuses.asks
  have hv := h.refuses.getElem?
  rw [expected?_eq_some.mpr h'.refuses.asks] at ht
  rw [h'.refuses.getElem?] at hv
  exact ⟨rfl, (Option.some.inj ht).symm, (Option.some.inj hv).symm⟩

/-- The type check lets the arguments pass if none is refused, and else tells the first one that
is. -/
theorem checkTypes_spec (s : Signature) (name : Text) (first : Nat) (args : List Value) :
    (s.checkTypes name first args = .ok () ∧ ∀ i t v, ¬ s.Refuses first args i t v) ∨
      ∃ i t v, s.RefusesFirst first args i t v ∧ s.checkTypes name first args =
        .error (.invalidType name (first + i : Nat) t.text (Text.ofString v.kind.name)) := by
  induction args generalizing first with
  | nil => exact .inl ⟨rfl, fun i t v h => by cases h.getElem?⟩
  | cons x xs ih =>
    by_cases hx : ∃ t, s.Asks first t ∧ ¬ t.Allows x
    · obtain ⟨t, ha, hn⟩ := hx
      refine .inr ⟨0, t, x, ⟨refuses_cons_zero.mpr ⟨rfl, ha, hn⟩, nofun⟩, ?_⟩
      rw [checkTypes, expected?_eq_some.mpr ha]
      exact if_neg (ParameterType.accepts_iff.not.mpr hn)
    · -- The first argument passes, so the faults are those of the others, one place further on.
      have hzero : ∀ t v, ¬ s.Refuses first (x :: xs) 0 t v := fun t v h =>
        hx ⟨t, (refuses_cons_zero.mp h).2⟩
      have hcheck : s.checkTypes name first (x :: xs) = s.checkTypes name (first + 1) xs := by
        rw [checkTypes]
        split
        · next t ht =>
          refine if_pos (ParameterType.accepts_iff.mpr (not_not.mp fun hn => ?_))
          exact hx ⟨t, expected?_eq_some.mp ht, hn⟩
        · rfl
      rw [hcheck]
      rcases ih (first + 1) with ⟨hok, hnone⟩ | ⟨i, t, v, ⟨hr, hleast⟩, herror⟩
      · refine .inl ⟨hok, ?_⟩
        rintro (_ | i) t v h
        · exact hzero t v h
        · exact hnone i t v (refuses_cons_succ.mp h)
      · refine .inr ⟨i + 1, t, v, ⟨refuses_cons_succ.mpr hr, ?_⟩, ?_⟩
        · rintro (_ | j) hj t v h
          · exact hzero t v h
          · exact hleast j (Nat.lt_of_succ_lt_succ hj) t v (refuses_cons_succ.mp h)
        · rw [herror, Nat.add_right_comm, Nat.add_assoc]

/-- If an argument is refused, a first one is. -/
theorem Refuses.exists_first {first i : Nat} {t : ParameterType} {v : Value}
    (h : s.Refuses first args i t v) : ∃ j u w, j ≤ i ∧ s.RefusesFirst first args j u w := by
  rcases s.checkTypes_spec [] first args with ⟨-, hnone⟩ | ⟨j, u, w, hr, -⟩
  · exact absurd h (hnone i t v)
  · exact ⟨j, u, w, Nat.le_of_not_lt fun hlt => hr.least i hlt t v h, hr⟩

theorem checkTypes_eq_ok_iff {first : Nat} :
    s.checkTypes name first args = .ok () ↔ ∀ i t v, ¬ s.Refuses first args i t v := by
  rcases s.checkTypes_spec name first args with ⟨hok, hnone⟩ | ⟨i, t, v, hr, herror⟩
  · exact iff_of_true hok hnone
  · rw [herror]
    exact iff_of_false nofun fun hnone => hnone i t v hr.refuses

theorem checkTypes_eq_error_iff {first : Nat} {p : EvalProblem} :
    s.checkTypes name first args = .error p ↔ ∃ i t v, s.RefusesFirst first args i t v ∧
      p = .invalidType name (first + i : Nat) t.text (Text.ofString v.kind.name) := by
  rcases s.checkTypes_spec name first args with ⟨hok, hnone⟩ | ⟨i, t, v, hr, herror⟩
  · rw [hok]
    exact iff_of_false nofun fun ⟨i, t, v, hr, _⟩ => hnone i t v hr.refuses
  · rw [herror]
    constructor
    · rintro ⟨⟩
      exact ⟨i, t, v, hr, rfl⟩
    · rintro ⟨j, u, w, hr', rfl⟩
      obtain ⟨rfl, rfl, rfl⟩ := hr.unique hr'
      rfl

theorem check_of_miscounts (h : s.Miscounts args) : s.check name args =
    .error (.invalidArity name s.inputs.length args.length s.variadic.isSome) := by
  rw [check, if_pos]
  · rfl
  · rwa [Option.isNone_iff_eq_none]

theorem check_of_not_miscounts (h : ¬ s.Miscounts args) :
    s.check name args = s.checkTypes name 0 args := by
  rw [check, if_neg]
  rwa [Option.isNone_iff_eq_none]

/-- The arguments pass if they are right in number and none of them is refused. -/
theorem check_eq_ok_iff :
    s.check name args = .ok () ↔ ¬ s.Miscounts args ∧ ∀ i t v, ¬ s.Refuses 0 args i t v := by
  by_cases hm : s.Miscounts args
  · rw [check_of_miscounts hm]
    exact iff_of_false nofun fun h => h.1 hm
  · rw [check_of_not_miscounts hm, checkTypes_eq_ok_iff]
    exact (and_iff_right hm).symm

/-- A wrong number of arguments is told before any of them is looked at, and then the first one
that is refused. -/
theorem check_eq_error_iff {p : EvalProblem} :
    s.check name args = .error p ↔
      (s.Miscounts args ∧
        p = .invalidArity name s.inputs.length args.length s.variadic.isSome) ∨
      (¬ s.Miscounts args ∧ ∃ i t v, s.RefusesFirst 0 args i t v ∧
        p = .invalidType name (i : Nat) t.text (Text.ofString v.kind.name)) := by
  by_cases hm : s.Miscounts args
  · rw [check_of_miscounts hm]
    simp only [hm, true_and, not_true_eq_false, false_and, or_false, Except.error.injEq, eq_comm]
  · rw [check_of_not_miscounts hm, checkTypes_eq_error_iff]
    simp only [hm, false_and, not_false_eq_true, true_and, false_or, Nat.zero_add]

end Signature

/-! ### The function that is called -/

/-- The function that a call by a name runs on some arguments, or what is wrong with the call. -/
def Registry.dispatch (r : Registry) (name : Text) (args : List Value) :
    Except EvalProblem Function :=
  match r.get? name with
  | none => .error (.unknownFunction name)
  | some f => (f.signature.check name args).map fun _ => f

namespace Registry
variable {r : Registry} {name : Text} {args : List Value} {f : Function}

theorem dispatch_of_get?_none (hf : r.get? name = none) :
    r.dispatch name args = .error (.unknownFunction name) := by
  rw [dispatch, hf]

theorem dispatch_of_get? (hf : r.get? name = some f) :
    r.dispatch name args = (f.signature.check name args).map fun _ => f := by
  rw [dispatch, hf]

/-- A call runs the function of its name if that takes the arguments. -/
theorem dispatch_eq_ok_iff : r.dispatch name args = .ok f ↔
    r.get? name = some f ∧ f.signature.check name args = .ok () := by
  cases hg : r.get? name with
  | none =>
    rw [dispatch_of_get?_none hg]
    exact iff_of_false nofun nofun
  | some g =>
    rw [dispatch_of_get? hg, Option.some.injEq]
    constructor
    · cases hc : g.signature.check name args with
      | error => nofun
      | ok =>
        rintro ⟨⟩
        exact ⟨rfl, hc⟩
    · rintro ⟨rfl, hc⟩
      rw [hc]
      rfl

theorem dispatch_eq_error_iff (hf : r.get? name = some f) {p : EvalProblem} :
    r.dispatch name args = .error p ↔ f.signature.check name args = .error p := by
  rw [dispatch_of_get? hf]
  cases f.signature.check name args <;> simp [Except.map]

/-- A call is of an unknown function exactly if nothing has its name. -/
theorem dispatch_unknown_iff :
    r.dispatch name args = .error (.unknownFunction name) ↔ r.get? name = none := by
  cases hf : r.get? name with
  | none => exact iff_of_true (dispatch_of_get?_none hf) rfl
  | some f =>
    rw [dispatch_eq_error_iff hf, Signature.check_eq_error_iff]
    refine iff_of_false ?_ nofun
    rintro (⟨-, ⟨⟩⟩ | ⟨-, _, _, _, -, ⟨⟩⟩)

end Registry

section
variable {env : Env} {name : Text} {args : List Value}

theorem invoke_of_dispatch_eq_error {p : EvalProblem}
    (h : env.registry.dispatch name args = .error p) (steps depth : Nat) (offset : Int) :
    invoke env (steps + 1) depth offset name args = Run.fail (.problem p offset) := by
  cases hf : env.registry.get? name with
  | none =>
    rw [Registry.dispatch_of_get?_none hf] at h
    cases h
    rw [invoke, hf]
  | some f =>
    rw [Registry.dispatch_eq_error_iff hf] at h
    rw [invoke_eq_call hf, Function.call, h]

theorem invoke_of_dispatch_eq_ok {f : Function}
    (h : env.registry.dispatch name args = .ok f) (steps depth : Nat) (offset : Int) :
    invoke env (steps + 1) depth offset name args =
      f.body ⟨env.source, depth, env.limit, offset, eval env steps depth,
        invoke env steps depth, env.shared⟩ args := by
  obtain ⟨hf, hc⟩ := Registry.dispatch_eq_ok_iff.mp h
  exact invoke_eq_body hf hc steps depth offset

end

/-- A call does what is found for it: the body of the function runs on these very arguments, or the
fault is told.  It is unknown if nothing has its name; else the number of its arguments is wrong if
there are fewer than inputs, or more without a type for further ones; else an argument is of the
wrong type if its type does not allow it, and then the first such one is told, which there is if
there is any; and if there is no fault the function is called.  A type allows the values of its
alternatives. -/
theorem invoke_dispatch (env : Env) (steps depth : Nat) (offset : Int) (name : Text)
    (args : List Value) :
    let call : Call :=
      ⟨env.source, depth, env.limit, offset, eval env steps depth, invoke env steps depth,
        env.shared⟩
    let answer := invoke env (steps + 1) depth offset name args
    let found := env.registry.dispatch name args
    (∀ p, found = .error p → answer = Run.fail (.problem p offset)) ∧
      (∀ f, found = .ok f → answer = f.body call args) ∧
      (found = .error (.unknownFunction name) ↔ env.registry.get? name = none) ∧
      (∀ f, env.registry.get? name = some f →
        (∀ expected actual variadic,
          found = .error (.invalidArity name expected actual variadic) ↔
            f.signature.Miscounts args ∧ expected = f.signature.inputs.length ∧
              actual = args.length ∧ variadic = f.signature.variadic.isSome) ∧
        (∀ position expected actual,
          found = .error (.invalidType name position expected actual) ↔
            ¬ f.signature.Miscounts args ∧ ∃ i t v, f.signature.RefusesFirst 0 args i t v ∧
              position = (i : Nat) ∧ expected = t.text ∧ actual = Text.ofString v.kind.name) ∧
        (∀ i t v, f.signature.Refuses 0 args i t v →
          ∃ j u w, j ≤ i ∧ f.signature.RefusesFirst 0 args j u w) ∧
        (found = .ok f ↔
          ¬ f.signature.Miscounts args ∧ ∀ i t v, ¬ f.signature.Refuses 0 args i t v)) ∧
      ∀ (t : ParameterType) (v : Value), t.accepts v = true ↔ t.Allows v := by
  intro call answer found
  refine ⟨?_, ?_, Registry.dispatch_unknown_iff, ?_, fun _ _ => ParameterType.accepts_iff⟩
  · exact fun p hp => invoke_of_dispatch_eq_error hp steps depth offset
  · exact fun f hf => invoke_of_dispatch_eq_ok hf steps depth offset
  · intro f hf
    refine ⟨?_, ?_, fun i t v h => h.exists_first, ?_⟩
    · intro expected actual variadic
      rw [Registry.dispatch_eq_error_iff hf, Signature.check_eq_error_iff]
      simp
    · intro position expected actual
      rw [Registry.dispatch_eq_error_iff hf, Signature.check_eq_error_iff]
      simp
    · rw [Registry.dispatch_eq_ok_iff, and_iff_right hf, Signature.check_eq_ok_iff]

/-- The second argument of `join` holds an item that is not a string. -/
theorem invoke_dispatch_join :
    let env : Env := ⟨"join(',', @)", .standard, 256, .alike⟩
    let args : List Value := [.str ",", .arr [.str "a", .null]]
    invoke env 1 0 0 "join" args =
        Run.fail (.problem (.invalidType "join" 1 "array[string]" "array") 0) ∧
      ∃ f t v, env.registry.get? "join" = some f ∧ f.signature.RefusesFirst 0 args 1 t v := by
  intro env args
  obtain ⟨herror, -, -, hfaults, -⟩ := invoke_dispatch env 0 0 0 "join" args
  have hget : env.registry.get? "join" = some ⟨_, _⟩ := rfl
  have hfound : env.registry.dispatch "join" args =
      .error (.invalidType "join" 1 "array[string]" "array") := rfl
  obtain ⟨-, i, t, v, hr, hi, -⟩ := ((hfaults _ hget).2.1 _ _ _).mp hfound
  obtain rfl : 1 = i := by exact_mod_cast hi
  exact ⟨herror _ hfound, _, t, v, hget, hr⟩

end JsonQuery
