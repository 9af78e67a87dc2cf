/-
Evaluations that differ only in where things stand.

An expression may be evaluated at another depth, with more pending steps, in another source and at
other offsets: if both evaluations give a result it is the same, up to the offsets of the
expressions that it holds.  This is how evaluations match when all failures are excused.

* `Run.Agree` — the results of two evaluations, if there are both, are related;
* `eval_agree` — evaluations of the same bare expression on the same bare value agree;
* `Registry.standard_steadyUpTo`, `Registry.standard_steady` — all functions of the standard
  registry are steady, whatever is excused.
-/
import JsonQuery.Proofs.Eval.Matches
import JsonQuery.Proofs.Function.Keep

namespace JsonQuery

/-- The results of two evaluations, if there are both, are related. -/
def Run.Agree {α β : Type} (rel : α → β → Prop) (x : Run α) (y : Run β) : Prop :=
  ∀ ⦃a b⦄, x.outcome = .ok a → y.outcome = .ok b → rel a b

open Run Value

/-- Two circumstances of a call in which evaluations and calls agree. -/
structure Call.Alike (c c' : Call) : Prop where
  shared : c.shared = c'.shared
  evaluate : ∀ ⦃e e' x x'⦄, e.bare = e'.bare → Like x x' →
    Agree Like (c.evaluate e x) (c'.evaluate e' x')
  invoke : ∀ ⦃o o' name xs xs'⦄, LikeAll xs xs' →
    Agree Like (c.invoke o name xs) (c'.invoke o' name xs')

/-- A function whose results do not tell where it is called, nor where the expressions in its
arguments stand. -/
def Function.Steady (f : Function) : Prop :=
  ∀ ⦃c c' xs xs'⦄, Call.Alike c c' → LikeAll xs xs' → Agree Like (f.body c xs) (f.body c' xs')

/-- All functions of a registry are steady. -/
def Registry.Steady (r : Registry) : Prop :=
  ∀ ⦃name f⦄, r.get? name = some f → f.Steady

/-! ### Agreement as a match -/

/-- No failure counts. -/
def anyFailure (_ : Failure) : Prop := True

theorem agree_iff_matches {α β : Type} {rel : α → β → Prop} {x : Run α} {y : Run β} :
    Agree rel x y ↔ Matches anyFailure rel x y := by
  unfold Agree Matches
  cases x.outcome with
  | error =>
    constructor
    · intro _
      cases y.outcome with
      | ok => trivial
      | error => exact .inr (.inl trivial)
    · intro _ a b ha
      cases ha
  | ok a =>
    cases y.outcome with
    | error =>
      constructor
      · intro _
        trivial
      · intro _ a b _ hb
        cases hb
    | ok b =>
      constructor
      · intro h
        exact h rfl rfl
      · rintro h _ _ ⟨⟩ ⟨⟩
        exact h

theorem Call.alike_iff_matches {c c' : Call} : Alike c c' ↔ Call.Matches anyFailure c c' := by
  constructor
  · intro h
    constructor
    · exact h.shared
    · intro e e' x x' he hx
      exact agree_iff_matches.mp (h.evaluate he hx)
    · intro o o' name xs xs' hx
      exact agree_iff_matches.mp (h.invoke hx)
  · intro h
    constructor
    · exact h.shared
    · intro e e' x x' he hx
      exact agree_iff_matches.mpr (h.evaluate he hx)
    · intro o o' name xs xs' hx
      exact agree_iff_matches.mpr (h.invoke hx)

theorem Function.steady_iff {f : Function} : f.Steady ↔ f.SteadyUpTo anyFailure := by
  simp only [Steady, SteadyUpTo, agree_iff_matches, Call.alike_iff_matches]

theorem Registry.steady_iff {r : Registry} : r.Steady ↔ r.SteadyUpTo anyFailure := by
  simp only [Steady, SteadyUpTo, Function.steady_iff]

/-- Evaluations of expressions and values that are the same up to offsets agree, whatever their
depth, steps, limits and sources. -/
theorem eval_agree {env env' : Env} (hr : env.registry = env'.registry)
    (hs : env.registry.Steady) (hshared : env.shared = env'.shared) {steps steps' d d' : Nat}
    {e e' : Expr} {v v' : Value}
    (he : e.bare = e'.bare) (hv : Like v v') :
    Agree Like (eval env steps d e v) (eval env' steps' d' e' v') := by
  have lax : Lax anyFailure := fun _ _ => trivial
  have h : MatchesAt anyFailure env env' steps steps' :=
    eval_matches hr (Registry.steady_iff.mp hs) (.inl lax) hshared (.inl lax)
  exact agree_iff_matches.mpr (h.eval (.inl lax) he hv)

/-! ### The standard functions -/

/-- All functions of the standard registry are steady, whatever failures are excused. -/
theorem Registry.standard_steadyUpTo (excused : Failure → Prop) :
    Registry.standard.SteadyUpTo excused := by
  intro name f h c c' xs xs' hc hx
  have hkeeps : f.Keeps (matching excused) .bare :=
    standard_keeps (fun _ => Likeness.bare_ordered) h
  exact hkeeps ⟨trivial, Likeness.bare_compares hc.shared, hc.evaluate⟩ hx.items

/-- All functions of the standard registry are steady. -/
theorem Registry.standard_steady : Registry.standard.Steady :=
  steady_iff.mpr (standard_steadyUpTo anyFailure)

end JsonQuery
