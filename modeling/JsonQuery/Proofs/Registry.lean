/-
Registries over time.

A change of a registry either puts one function in it, under a name that is an identifier and that
is new or may be replaced, or freezes it; a change that is refused leaves it as it is.  So what a
registry holds after a run of changes is told by the registrations of the run that were taken: every
name has the function that was registered last under it, or the one that it had from the beginning.

* `Registry.Takes` — when a registry takes a function under a name;
* `Registry.change_eq_ok` — what a change that is not refused does;
* `Registry.registrations` — the registrations of a run that are taken;
* `Registry.get?_run`, `Registry.frozen_run` — what a registry holds after a run, and when it is
  frozen;
* `Registry.WellNamed` — the names of a registry are distinct identifiers, which every run keeps;
* `Registry.pairwise_names`, `Registry.mem_names` — its names in order.
-/
import JsonQuery.Proofs.Entries
import JsonQuery.Proofs.Function.SortKey
import JsonQuery.Proofs.Grammar.Source
import JsonQuery.Registry

namespace JsonQuery
namespace Registry

open Grammar

/-! ### One change -/

/-- What a change offers: the name, the function, and whether it may replace another one. -/
def Change.offered? : Change → Option (Text × Function × Bool)
  | .register (.str name) (.function f) replace => some (name, f, replace)
  | .registerHost (.str name) ⟨some signature, some body⟩ replace =>
    some (name, .ofHost signature body, replace)
  | _ => none

/-- A registry takes a function under a name if it is not frozen and the name is an identifier,
which is new or may be replaced. -/
structure Takes (r : Registry) (name : Text) (replace : Bool) : Prop where
  not_frozen : r.frozen = false
  isIdentifier : name.isIdentifier = true
  free : r.get? name = none ∨ replace = true

/-- The registry with a function under a name. -/
def put (r : Registry) (name : Text) (f : Function) : Registry :=
  { r with functions := r.functions.insert name f }

theorem checkName_eq_ok {d : Document} {name : Text} :
    checkName d = .ok name ↔ d = .str name ∧ name.isIdentifier = true := by
  cases d with
  | str t =>
    rw [checkName]
    split
    · next h =>
      constructor
      · rintro ⟨⟩
        exact ⟨rfl, h⟩
      · rintro ⟨⟨⟩, -⟩
        rfl
    · next h =>
      constructor
      · rintro ⟨⟩
      · rintro ⟨⟨⟩, hname⟩
        exact absurd hname h
  | _ =>
    constructor
    · rintro ⟨⟩
    · rintro ⟨⟨⟩, -⟩

theorem checkCandidate_eq_ok {name : Text} {candidate : Candidate} {f : Function} :
    checkCandidate name candidate = .ok f ↔ candidate = .function f := by
  cases candidate <;> simp [checkCandidate]

theorem contains_and_not {r : Registry} {name : Text} {replace : Bool} :
    (r.contains name && !replace) = true ↔ ¬ (r.get? name = none ∨ replace = true) := by
  rw [contains]
  cases r.get? name <;> cases replace <;> simp

/-- A registration is taken if a function is offered under a name that the registry takes. -/
theorem register_eq_ok {r r' : Registry} {d : Document} {candidate : Candidate} {replace : Bool} :
    r.register d candidate replace = .ok r' ↔
      ∃ name f, d = .str name ∧ candidate = .function f ∧ r.Takes name replace ∧
        r' = r.put name f := by
  rw [register]
  split
  · next hfrozen =>
    constructor
    · rintro ⟨⟩
    · rintro ⟨name, f, -, -, ht, -⟩
      rw [ht.not_frozen] at hfrozen
      cases hfrozen
  · next hfrozen =>
    simp only [bind_eq_ok, checkName_eq_ok, checkCandidate_eq_ok]
    constructor
    · rintro ⟨name, ⟨rfl, hname⟩, f, rfl, h⟩
      split at h
      · cases h
      · next hfree =>
        cases h
        rw [contains_and_not, not_not] at hfree
        exact ⟨name, f, rfl, rfl, ⟨Bool.not_eq_true _ ▸ hfrozen, hname, hfree⟩, rfl⟩
    · rintro ⟨name, f, rfl, rfl, ht, rfl⟩
      refine ⟨name, ⟨rfl, ht.isIdentifier⟩, f, rfl, ?_⟩
      rw [if_neg (contains_and_not.not.mpr (not_not.mpr ht.free))]
      rfl

theorem toFunction_eq_ok {offer : HostOffer} {f : Function} :
    offer.toFunction = .ok f ↔
      ∃ signature body, offer = ⟨some signature, some body⟩ ∧ f = .ofHost signature body := by
  obtain ⟨signature, body⟩ := offer
  cases signature <;> cases body <;> simp [HostOffer.toFunction, eq_comm]

theorem offered?_eq_some {c : Change} {name : Text} {f : Function} {replace : Bool} :
    c.offered? = some (name, f, replace) ↔
      c = .register (.str name) (.function f) replace ∨
        ∃ signature body, c = .registerHost (.str name) ⟨some signature, some body⟩ replace ∧
          f = .ofHost signature body := by
  constructor
  · intro h
    unfold Change.offered? at h
    split at h
    · cases h
      exact .inl rfl
    · cases h
      exact .inr ⟨_, _, rfl, rfl⟩
    · cases h
  · rintro (rfl | ⟨signature, body, rfl, rfl⟩)
    · rfl
    · rfl

/-- A change that is not refused freezes the registry, or puts a function in it that is offered
under a name that the registry takes. -/
theorem change_eq_ok {r r' : Registry} {c : Change} :
    r.change c = .ok r' ↔ (c = .freeze ∧ r' = r.freeze) ∨
      ∃ name f replace, c.offered? = some (name, f, replace) ∧ r.Takes name replace ∧
        r' = r.put name f := by
  simp only [offered?_eq_some]
  cases c with
  | freeze => simp [change, eq_comm]
  | register d candidate replace =>
    rw [change, mapError_eq_ok, register_eq_ok]
    constructor
    · rintro ⟨name, f, rfl, rfl, ht, rfl⟩
      exact .inr ⟨name, f, replace, .inl rfl, ht, rfl⟩
    · rintro (⟨⟨⟩, -⟩ | ⟨name, f, replace, ⟨⟨⟩⟩ | ⟨_, _, ⟨⟩, -⟩, ht, rfl⟩)
      exact ⟨name, f, rfl, rfl, ht, rfl⟩
  | registerHost d offer replace =>
    rw [change, registerHost]
    simp only [bind_eq_ok, mapError_eq_ok, toFunction_eq_ok, register_eq_ok]
    constructor
    · rintro ⟨f, ⟨signature, body, rfl, rfl⟩, name, f', rfl, ⟨⟩, ht, rfl⟩
      exact .inr ⟨name, _, replace, .inr ⟨signature, body, rfl, rfl⟩, ht, rfl⟩
    · rintro (⟨⟨⟩, -⟩ | ⟨name, f, replace, ⟨⟨⟩⟩ | ⟨signature, body, ⟨⟩, rfl⟩, ht, rfl⟩)
      exact ⟨_, ⟨signature, body, rfl, rfl⟩, name, _, rfl, rfl, ht, rfl⟩

/-- What a change registers, if it is taken: a function and its name. -/
def registered (r : Registry) (c : Change) : Entries Function :=
  match r.change c, c.offered? with
  | .ok _, some (name, f, _) => [(name, f)]
  | _, _ => []

/-- What a change does to a registry: it freezes it, puts a function in it, or is refused. -/
inductive Step (r : Registry) : Change → Registry → Entries Function → Prop
  | freeze : Step r .freeze r.freeze []
  | put {c name f replace} : c.offered? = some (name, f, replace) → r.Takes name replace →
    Step r c (r.put name f) [(name, f)]
  | refused {c} : c ≠ .freeze → Step r c r []

theorem step_after (r : Registry) (c : Change) : r.Step c (r.after c) (r.registered c) := by
  rw [after, registered]
  cases h : r.change c with
  | error e =>
    refine .refused ?_
    rintro rfl
    cases h
  | ok changed =>
    -- A freeze offers nothing, so nothing is registered by it.
    rcases change_eq_ok.mp h with ⟨rfl, rfl⟩ | ⟨name, f, replace, hoffer, ht, rfl⟩
    · exact .freeze
    · rw [hoffer]
      exact .put hoffer ht

/-! ### What a change keeps -/

@[simp] theorem get?_put (r : Registry) (name name' : Text) (f : Function) :
    (r.put name f).get? name' = if name = name' then some f else r.get? name' :=
  Entries.get?_insert _ _ _ _

/-- After a change a name has the function that is registered under it, or the one that it had. -/
theorem get?_after (r : Registry) (c : Change) (name : Text) :
    (r.after c).get? name = (Entries.get? (r.registered c) name).or (r.get? name) := by
  have h := step_after r c
  generalize r.after c = r', r.registered c = fs at h
  cases h with
  | freeze => rfl
  | refused => rfl
  | put =>
    rw [get?_put, Entries.get?]
    split <;> rfl

theorem frozen_after (r : Registry) (c : Change) :
    (r.after c).frozen = true ↔ r.frozen = true ∨ c = .freeze := by
  have h := step_after r c
  generalize r.after c = r', r.registered c = fs at h
  cases h with
  | freeze => simp [freeze]
  | refused hc => simp [hc]
  | put hoffer =>
    have hc : c ≠ .freeze := by
      rintro rfl
      cases hoffer
    simp [put, hc]

/-- The names of a registry are distinct identifiers. -/
structure WellNamed (r : Registry) : Prop where
  nodup : r.functions.keys.Nodup
  isIdentifier : ∀ name ∈ r.functions.keys, name.isIdentifier = true

theorem wellNamed_empty : empty.WellNamed :=
  ⟨.nil, List.forall_mem_nil _⟩

theorem wellNamed_builtins : builtins.WellNamed :=
  ⟨by decide +kernel, by decide +kernel⟩

theorem WellNamed.put {r : Registry} (h : r.WellNamed) {name : Text}
    (hname : name.isIdentifier = true) (f : Function) : (r.put name f).WellNamed := by
  refine ⟨Entries.nodup_keys_insert h.nodup name f, ?_⟩
  intro name' hmem
  rw [Registry.put, Entries.keys_insert] at hmem
  split at hmem
  · exact h.isIdentifier name' hmem
  · rcases List.mem_append.mp hmem with hmem | hmem
    · exact h.isIdentifier name' hmem
    · rwa [List.mem_singleton.mp hmem]

theorem WellNamed.after {r : Registry} (h : r.WellNamed) (c : Change) : (r.after c).WellNamed := by
  have hstep := step_after r c
  generalize r.after c = r', r.registered c = fs at hstep
  cases hstep with
  | freeze => exact ⟨h.nodup, h.isIdentifier⟩
  | refused => exact h
  | put _ ht => exact h.put ht.isIdentifier _

/-! ### Runs -/

/-- The registrations of a run that are taken, the last one first. -/
def registrations (r : Registry) : List Change → Entries Function
  | [] => []
  | c :: cs => registrations (r.after c) cs ++ r.registered c

theorem run_cons (r : Registry) (c : Change) (cs : List Change) :
    r.run (c :: cs) = (r.after c).run cs :=
  rfl

theorem run_concat (r : Registry) (cs : List Change) (c : Change) :
    r.run (cs ++ [c]) = (r.run cs).after c := by
  rw [run, List.foldl_append]
  rfl

/-- After a run a name has the function that was registered last under it, or the one that
it had. -/
theorem get?_run (r : Registry) (cs : List Change) (name : Text) :
    (r.run cs).get? name = (Entries.get? (r.registrations cs) name).or (r.get? name) := by
  induction cs generalizing r with
  | nil => rfl
  | cons c cs ih =>
    -- The registrations of the rest of the run are later than that of the first change.
    rw [run_cons, ih, get?_after, registrations, Entries.get?_append, Option.or_assoc]

/-- A registry is frozen after a run if it was so before or is frozen in the run. -/
theorem frozen_run (r : Registry) (cs : List Change) :
    (r.run cs).frozen = true ↔ r.frozen = true ∨ .freeze ∈ cs := by
  induction cs generalizing r with
  | nil => simp [run]
  | cons c cs ih => rw [run_cons, ih, frozen_after, List.mem_cons, or_assoc, eq_comm (a := c)]

theorem WellNamed.run {r : Registry} (h : r.WellNamed) (cs : List Change) :
    (r.run cs).WellNamed := by
  induction cs generalizing r with
  | nil => exact h
  | cons c cs ih => exact ih (h.after c)

/-! ### Names -/

theorem mem_names (r : Registry) (name : Text) : name ∈ r.names ↔ (r.get? name).isSome = true := by
  rw [names, List.mem_mergeSort, get?, Entries.isSome_get?]

/-- The names of a registry are in strictly ascending order. -/
theorem WellNamed.pairwise_names {r : Registry} (h : r.WellNamed) :
    r.names.Pairwise (· < ·) := by
  have hsorted : r.names.Pairwise (· ≤ ·) := by
    let le (s t : Text) : Bool := decide (¬ t < s)
    have htrans : ∀ s t u, le s t → le t u → le s u := by
      simpa [le] using fun s t u => List.le_trans
    have htotal : ∀ s t, (le s t || le t s) = true := by
      simpa [le] using List.le_total
    refine (List.pairwise_mergeSort htrans htotal r.functions.keys).imp ?_
    simp [le]
  -- Sorting keeps the names distinct, so no two neighbours are equal.
  have hnodup : r.names.Nodup := (List.mergeSort_perm _ _).nodup_iff.mpr h.nodup
  refine (hsorted.and hnodup).imp ?_
  rintro s t ⟨hle, hne⟩
  exact Std.lt_of_le_of_ne hle hne

end Registry
end JsonQuery
