/-
Registered functions can be called.

A registry takes a function under the texts that are one token each, a name without quotes.  So a
source can call every function that a registry holds: the call of a function with the fields of the
current value as its arguments is parsed as it is written, and hands their values to the function.

* `isIdentifier_iff_spells` — a text is an identifier if it is one token that says it;
* `Expr.callOn` — the call of a function on the fields of the current value;
* `Registry.WellNamed.run_callOn` — which is what the function does on their values;
* `Registry.run_from` — what a registry holds after a run of changes.
-/
import JsonQuery.Proofs.Compile
import JsonQuery.Proofs.Eval.Meaning
import JsonQuery.Proofs.Expr.ReadBack
import JsonQuery.Proofs.Grammar.Literals
import JsonQuery.Proofs.Registry

namespace JsonQuery

open Grammar

/-- A text is an identifier exactly if it is one token, an identifier that says the whole text. -/
theorem isIdentifier_iff_spells {t : Text} :
    t.isIdentifier = true ↔ Spells t [.identifier t] := by
  constructor
  · intro h
    -- Nothing stands behind the text that the identifier could go on into.
    have hend : (Lexeme.identifier t).EndsBefore [] := by
      rintro c ⟨⟩
    have hlegible : Legible [.identifier t] := ⟨h, hend, trivial⟩
    have hs := spells_text hlegible
    rwa [List.flatMap_singleton] at hs
  · rintro ⟨tokens, ht, hlex⟩
    obtain ⟨x, hx, hname⟩ : ∃ x ∈ tokens.items, x.lexeme = .identifier t := by
      rw [← List.mem_map, ← lexemes, hlex]
      exact List.mem_singleton_self _
    have hmade := Tokens.ofSource_wellMade (mapError_eq_ok.mp ht) x hx
    rwa [hname] at hmade

/-! ### Calls on fields -/

namespace Expr

/-- The call of a function whose arguments are the fields of the current value with some keys. -/
def callOn (name : Text) (keys : List Text) : Expr :=
  .call name (keys.map fun k => .atom (.field k) 0) 0

variable {name : Text} {keys : List Text}

theorem writable_callOn (h : name.isIdentifier = true) : (callOn name keys).Writable := by
  refine .selector h ?_
  intro c hc
  obtain ⟨k, -, rfl⟩ := List.mem_map.mp hc
  exact .selector trivial (List.forall_mem_nil _)

theorem nesting_callOn_le : (callOn name keys).nesting ≤ 3 := by
  have hlist : nestingList (keys.map fun k => .atom (.field k) 0) ≤ 2 := by
    induction keys with
    | nil => exact Nat.zero_le 2
    | cons k keys ih => exact Nat.max_le.mpr ⟨Nat.le_refl 2, ih⟩
  exact Nat.succ_le_succ hlist

theorem unsigned_bare_callOn : (callOn name keys).unsigned.bare = callOn name keys := by
  have hlist : bareList (unsignedList (keys.map fun k => .atom (.field k) 0)) =
      keys.map fun k => .atom (.field k) 0 := by
    induction keys with
    | nil => rfl
    | cons k keys ih => exact congrArg _ ih
  exact congrArg (Expr.call name · 0) hlist

/-- Such a call is parsed as it is written. -/
theorem exists_parse_callOn (h : name.isIdentifier = true) (keys : List Text) :
    ∃ args o, Expr.parse (callOn name keys).text = .ok (.call name args o) ∧
      args.map bare = keys.map fun k => .atom (.field k) 0 := by
  have hn : (callOn name keys).nesting ≤ nestingLimit := Nat.le_trans nesting_callOn_le (by decide)
  obtain ⟨e, hparse, hbare⟩ := (writable_callOn h).exists_parse hn
  rw [unsigned_bare_callOn] at hbare
  obtain ⟨args, o, rfl⟩ := bare_eq_call hbare
  refine ⟨args, o, hparse, ?_⟩
  rw [bare, bareList_eq_map] at hbare
  exact (Expr.call.inj hbare).2.1

end Expr

/-- Fields are evaluated to the values of their keys. -/
theorem mapM_fields {env : Env} {depth : Nat} (hd : (depth + 1 : Int) ≤ env.limit) (steps : Nat)
    {args : List Expr} {keys : List Text}
    (h : args.map Expr.bare = keys.map fun k => .atom (.field k) 0) (v : Value) :
    (args.mapM fun e => eval env (steps + 1) depth e v) = Pure.pure (keys.map v.getField) := by
  induction keys generalizing args with
  | nil =>
    obtain rfl := List.map_eq_nil_iff.mp h
    rfl
  | cons k keys ih =>
    obtain ⟨a, args, rfl, ha, hargs⟩ := List.map_eq_cons_iff.mp h
    obtain ⟨o, rfl⟩ := bare_eq_atom ha
    rw [List.mapM_cons, eval_atom hd, ih hargs]
    rfl

/-- The circumstances of a call at the root of a query. -/
def Query.rootCall (q : Query) (shared : Sharing) (offset : Int) : Call :=
  ⟨q.source, 1, q.limit, offset, eval (q.env shared) (nestingLimit - 2) 1,
    invoke (q.env shared) (nestingLimit - 2) 1, shared⟩

/-- A query that is a call does what the function does on the values of its arguments. -/
theorem Query.run_call {q : Query} {name : Text} {args : List Expr} {o : Nat} {f : Function}
    {v : Value} {xs : List Value} {shared : Sharing} (he : q.expr = some (.call name args o))
    (hf : (q.env shared).registry.get? name = some f)
    (hargs : (args.mapM fun e => eval (q.env shared) (nestingLimit - 1) 1 e v) = Pure.pure xs) :
    q.run v shared = (f.call name (q.rootCall shared o) xs).afterCall o := by
  have hlimit : ¬ (q.env shared).limit < (0 : Nat) + 1 := by
    have := q.limit_pos
    change ¬ q.limit < (0 : Nat) + 1
    omega
  -- The call takes one of the steps that may be pending, and calling the function another one.
  have hcall : invoke (q.env shared) (nestingLimit - 1) 1 o name xs =
      f.call name (q.rootCall shared o) xs :=
    invoke_eq_call hf (nestingLimit - 2) 1 o xs
  rw [run, he]
  change eval (q.env shared) (nestingLimit - 1 + 1) 0 (.call name args o) v = _
  rw [eval_call, Env.guard, if_neg hlimit, hargs, pure_bind, hcall]

namespace Registry

/-- A function of a registry is called from a source with any arguments, which are the values of an
object: the search for the call on the fields of the object does what the function does on them. -/
theorem WellNamed.run_callOn {r : Registry} (h : r.WellNamed) {name : Text} {f : Function}
    (hf : r.get? name = some f) {es : Entries Value} (hn : (Entries.keys es).Nodup) {limit : Int}
    (hl : 2 ≤ limit) :
    ∃ q o, Query.compile (Expr.callOn name (Entries.keys es)).text (some r) limit = .ok q ∧
      ∀ shared, (q.run (.obj es) shared).outcome =
        (f.call name (q.rootCall shared o) (es.map Prod.snd)).outcome := by
  have hname : name.isIdentifier = true := by
    refine h.isIdentifier name ((Entries.isSome_get? _ _).mp ?_)
    exact Option.isSome_iff_exists.mpr ⟨f, hf⟩
  obtain ⟨args, o, hparse, hargs⟩ := Expr.exists_parse_callOn hname (Entries.keys es)
  have hpos : 1 ≤ limit := by omega
  refine ⟨_, o, Query.compile_eq_ok.mpr ⟨_, hparse, hpos, rfl⟩, fun shared => ?_⟩
  -- From here on only the tree, the registry and the limit of the query count.
  generalize hq : Query.mk _ (some (.call name args o)) _ limit hpos = q
  have hvalues : (args.mapM fun e => eval (q.env shared) (nestingLimit - 1) 1 e (.obj es)) =
      Pure.pure (es.map Prod.snd) := by
    rw [← Entries.map_get?_keys hn .null]
    exact mapM_fields (hq ▸ hl) (nestingLimit - 2) hargs (.obj es)
  have hexpr : q.expr = some (.call name args o) := hq ▸ rfl
  have hget : (q.env shared).registry.get? name = some f := hq ▸ hf
  rw [Query.run_call hexpr hget hvalues, Run.outcome_afterCall]

/-- A registry that was empty or held the built-in functions, after any run of changes: a name has
the function that was registered last under it, or the built-in one; the names are those that have a
function, in strictly ascending order; and it is frozen if the run has frozen it.  A further change
that is refused leaves it as it is, and a registration is refused exactly if the registry is frozen,
what is offered is no function with a signature, the name is no identifier, or it is taken and may
not be replaced.  Identifiers are the texts that are one token that says them, so every function of
the registry is called by its name from a source. -/
theorem run_from {start : Registry} (h : start = .empty ∨ start = .builtins) (cs : List Change) :
    let r := start.run cs
    (∀ name, r.get? name =
      (Entries.get? (start.registrations cs) name).or (start.get? name)) ∧
    (r.names.Pairwise (· < ·) ∧ ∀ name, name ∈ r.names ↔ (r.get? name).isSome = true) ∧
    (r.frozen = true ↔ .freeze ∈ cs) ∧
    (∀ c, (∀ e, r.change c = .error e → start.run (cs ++ [c]) = r) ∧
      ((∃ r', r.change c = .ok r') ↔ c = .freeze ∨
        ∃ name f replace, c.offered? = some (name, f, replace) ∧ r.Takes name replace)) ∧
    (∀ t : Text, t.isIdentifier = true ↔ Spells t [.identifier t]) ∧
    ∀ name f, r.get? name = some f →
      ∀ es : Entries Value, (Entries.keys es).Nodup → ∀ limit : Int, 2 ≤ limit →
        ∃ q o, Query.compile (Expr.callOn name (Entries.keys es)).text (some r) limit = .ok q ∧
          ∀ shared, (q.run (.obj es) shared).outcome =
            (f.call name (q.rootCall shared o) (es.map Prod.snd)).outcome := by
  intro r
  have hr : r.WellNamed := by
    rcases h with rfl | rfl
    · exact wellNamed_empty.run cs
    · exact wellNamed_builtins.run cs
  have hstart : start.frozen = false := by
    rcases h with rfl | rfl
    · rfl
    · rfl
  refine ⟨get?_run start cs, ⟨hr.pairwise_names, mem_names r⟩, ?_, ?_, ?_, ?_⟩
  · rw [frozen_run, hstart]
    simp
  · intro c
    constructor
    · intro e he
      rw [run_concat, after, he]
    · simp only [change_eq_ok]
      constructor
      · rintro ⟨r', ⟨hc, -⟩ | ⟨name, f, replace, hoffer, ht, -⟩⟩
        · exact .inl hc
        · exact .inr ⟨name, f, replace, hoffer, ht⟩
      · rintro (hc | ⟨name, f, replace, hoffer, ht⟩)
        · exact ⟨_, .inl ⟨hc, rfl⟩⟩
        · exact ⟨_, .inr ⟨name, f, replace, hoffer, ht, rfl⟩⟩
  · exact fun _ => isIdentifier_iff_spells
  · exact fun _ _ hf _ hn _ hl => hr.run_callOn hf hn hl

/-- A function is registered, not replaced, replaced by one of the embedding program, and no longer
replaced once the registry is frozen. -/
theorem run_from_replaced :
    let signature : Signature := ⟨[.one .any], none, .one .any⟩
    let body : Call → List Value → Run Host := fun _ _ => Run.pure (.str "done")
    let offer : HostOffer := ⟨some signature, some body⟩
    let cs : List Change :=
      [.register (.str "f") (.function (.abstract signature)) false,
        .registerHost (.str "f") offer false, .registerHost (.str "f") offer true,
        .register (.str "2f") (.function (.abstract signature)) false, .freeze,
        .register (.str "f") (.function (.abstract signature)) true]
    let r := empty.run cs
    (empty = .empty ∨ empty = .builtins) ∧
      r.get? "f" = some (.ofHost signature body) ∧ (∀ name, name ∈ r.names ↔ name = "f") ∧
      (∀ c, (∃ r', r.change c = .ok r') ↔ c = .freeze) ∧
      ∃ q, Query.compile "f((\"a\"))" (some r) 2 = .ok q ∧
        (q.run (.obj [("a", .bool true)])).outcome = .ok (.str "done") := by
  intro signature body offer cs r
  have hstart : empty = .empty ∨ empty = .builtins := .inl rfl
  obtain ⟨hget, ⟨-, hnames⟩, hfrozen, hchange, -, hcall⟩ := run_from hstart cs
  have hf : r.get? "f" = some (.ofHost signature body) := hget "f"
  refine ⟨hstart, hf, ?_, ?_, ?_⟩
  · intro name
    have hkeys : r.functions.keys = [Text.ofString "f"] := rfl
    rw [hnames, get?, Entries.isSome_get?, hkeys, List.mem_singleton]
  · intro c
    rw [(hchange c).2, or_iff_left]
    rintro ⟨name, f, replace, -, ht⟩
    have := ht.not_frozen
    rw [hfrozen.mpr (by simp [cs])] at this
    cases this
  · obtain ⟨q, o, hq, hrun⟩ := hcall "f" _ hf [("a", .bool true)] (by decide) 2 (by decide)
    exact ⟨q, hq, hrun .alike⟩

end Registry
end JsonQuery
