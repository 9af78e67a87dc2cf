/-
Merged objects and written ones.

The function that merges objects puts them into one another from the left: a key stands where it
comes first and has the value that it is given last, in whatever grouping the objects are merged.
An object that is written with its keys gets its entries in the same way, so it is what merges as
many objects with one entry each.

* `matches_entries` — the entries of a written object match the objects that are merged;
* `matches_merge` — so do the written object and the merged one;
* `search_merge` — merging objects, and searching with the one and the other.
-/
import JsonQuery.Proofs.Eval.Meaning
import JsonQuery.Proofs.Function.Merge
import JsonQuery.Proofs.Search.Alike

namespace JsonQuery

open Run Value

/-- An expression writes an object with one entry, whose value is that of another one up to
offsets. -/
def Expr.Holds (p : Text × Expr) (a : Expr) : Prop :=
  ∃ c o, a = .hash [(p.1, c)] o ∧ p.2.bare = c.bare

/-- Merging objects with one entry each makes the map of these entries. -/
theorem invoke_merge_entries {env : Env}
    (hm : env.registry.get? "merge" = Registry.standard.get? "merge") {es : Entries Value}
    (hn : es ≠ []) (steps depth : Nat) (offset : Int) :
    invoke env (steps + 1) depth offset "merge" (es.map fun entry => .obj [entry]) =
      Pure.pure (.obj (Entries.ofList es)) := by
  have hparts : (es.map fun entry => [entry]) ≠ [] := fun h => hn (List.map_eq_nil_iff.mp h)
  have h := Builtin.invoke_merge hm hparts steps depth offset
  rw [List.map_map, List.foldl_map] at h
  exact h

section
variable {excused : Failure → Prop} {env env' : Env} {d d' : Nat} {v : Value} (hl : Lax excused)
  (hat : ∀ steps steps', MatchesAt excused env env' steps steps') (hv : v.isNull = false)
include hl hat hv

/-- The entries of a written object match objects with one entry each. -/
theorem matches_entries {steps steps' : Nat} {ps : List (Text × Expr)} {args : List Expr}
    (h : List.Forall₂ Expr.Holds ps args) :
    Matches excused (fun es xs => ∃ fs : Entries Value, fs.length = ps.length ∧
        bareEntries es = bareEntries fs ∧ xs = fs.map fun f => .obj [f])
      (mapPairs (fun e => eval env steps d e v) ps)
      (args.mapM fun e => eval env' steps' d' e v) := by
  induction h with
  | nil => exact matches_pure ⟨[], rfl, rfl, rfl⟩
  | @cons p a ps args ha _ ih =>
    obtain ⟨k, c⟩ := p
    obtain ⟨c', o, rfl, hc⟩ := ha
    have hentry : Matches excused (fun x y => ∃ z, y = .obj [(k, z)] ∧ Like x z)
        (eval env steps d c v) (eval env' steps' d' (.hash [(k, c')] o) v) := by
      refine matches_node_right hl (fun steps => eval_hash env' steps d' v o _) (fun steps' => ?_)
        steps'
      rw [hv, if_neg Bool.false_ne_true, mapPairs]
      simp only [mapPairs, pure_bind, bind_assoc]
      rw [← bind_pure (eval env steps d c v)]
      refine matches_bind ((hat _ _).eval (.inl hl) hc rfl) ?_
      intro x z hxz
      exact matches_pure ⟨z, rfl, hxz⟩
    rw [mapPairs, List.mapM_cons]
    refine matches_bind hentry ?_
    rintro x _ ⟨z, rfl, hxz⟩
    refine matches_bind ih ?_
    rintro es _ ⟨fs, hlen, hfs, rfl⟩
    refine matches_pure ⟨(k, z) :: fs, congrArg (· + 1) hlen, ?_, rfl⟩
    rw [bareEntries_cons, bareEntries_cons, hxz, hfs]

/-- A written object matches what merges objects with one entry each. -/
theorem matches_merge (hm : env'.registry.get? "merge" = Registry.standard.get? "merge")
    {ps : List (Text × Expr)} {args : List Expr} (h : List.Forall₂ Expr.Holds ps args)
    (hn : ps ≠ []) (o o' : Nat) (steps steps' : Nat) :
    Matches excused Like (eval env steps d (.hash ps o) v)
      (eval env' steps' d' (.call "merge" args o') v) := by
  refine matches_node_left hl (fun steps => eval_hash env steps d v o ps) (fun steps => ?_) steps
  refine matches_node_right hl (fun steps => eval_call env' steps d' v o' _ args) (fun steps' => ?_)
    steps'
  rw [hv, if_neg Bool.false_ne_true]
  refine matches_bind (matches_entries hl hat hv h) ?_
  rintro es _ ⟨fs, hlen, hfs, rfl⟩
  show Matches excused Like _ (invoke env' steps' (d' + 1) o' "merge" _)
  cases steps' with
  | zero =>
    rw [invoke]
    exact matches_fail_right (hl trivial)
  | succ steps' =>
    have hfs' : fs ≠ [] := by
      rintro rfl
      exact hn (List.length_eq_zero_iff.mp hlen.symm)
    rw [invoke_merge_entries hm hfs']
    refine matches_pure (like_obj ?_)
    rw [Entries.ofList, Entries.ofList, bareEntries_update, bareEntries_update, hfs]

end

/-- An expression that is the same up to offsets as one that writes an object with one entry. -/
theorem holds_of_bare {p p' : Text × Expr} {a : Expr} (hp : (p.1, p.2.bare) = (p'.1, p'.2.bare))
    (ha : a.bare = (Expr.hash [p'] 0).bare) : Expr.Holds p a := by
  obtain ⟨qs, o, rfl⟩ := bare_eq_hash ha
  rw [Expr.bare, Expr.bare, Expr.hash.injEq, barePairs_eq_map, barePairs_eq_map, List.map_singleton,
    ← hp, List.map_eq_singleton_iff] at ha
  obtain ⟨⟨⟨k, c⟩, rfl, hc⟩, -⟩ := ha
  obtain ⟨rfl, hc⟩ := Prod.mk.inj hc
  exact ⟨c, o, rfl, hc.symm⟩

/-- The entries of a written object, and the objects that a call merges. -/
theorem forall₂_holds {ps ps' : List (Text × Expr)} {args : List Expr}
    (h : Expr.barePairs ps = Expr.barePairs ps')
    (h' : Expr.bareList args = Expr.bareList (ps'.map fun p => .hash [p] 0)) :
    List.Forall₂ Expr.Holds ps args := by
  rw [barePairs_eq_map, barePairs_eq_map] at h
  rw [bareList_eq_map, bareList_eq_map] at h'
  have hargs := forall₂_of_map_eq h'
  rw [List.forall₂_map_right_iff] at hargs
  have hpairs := forall₂_of_map_eq h
  clear h h'
  induction hpairs generalizing args with
  | nil =>
    cases hargs
    exact .nil
  | cons hp _ ih =>
    cases hargs with
    | cons ha hargs => exact .cons (holds_of_bare hp ha) (ih hargs)

/-- Merging objects: every key of the objects comes out once, at the place of its first occurrence
and with the value of its last, and objects may be merged in any grouping.  A written object is
found as what merges objects with one entry each: a search ends in the same way with the one and the
other on every document but null, unless it reaches the limit. -/
theorem search_merge {r : Registry} (hm : r.get? "merge" = Registry.standard.get? "merge")
    (hs : r.SteadyUpTo Failure.IsLimit) :
    (∀ (env : Env), env.registry = r → ∀ (steps depth : Nat) (offset : Int),
      let merged := fun os : List (Entries Value) =>
        (invoke env (steps + 1) depth offset "merge" (os.map .obj)).outcome
      (∀ os, os ≠ [] → (∀ o ∈ os, (Entries.keys o).Nodup) →
        ∃ m, merged os = .ok (.obj m) ∧ Entries.keys m = (os.flatMap Entries.keys).eraseDups ∧
          (Entries.keys m).Nodup ∧
          ∀ key, Entries.get? m key = os.reverse.findSome? fun o => Entries.get? o key) ∧
      ∀ a b c, (Entries.keys a).Nodup → (Entries.keys b).Nodup → (Entries.keys c).Nodup →
        ∃ ab bc m, merged [a, b] = .ok (.obj ab) ∧ merged [b, c] = .ok (.obj bc) ∧
          merged [a, b, c] = .ok (.obj m) ∧ merged [ab, c] = .ok (.obj m) ∧
          merged [a, bc] = .ok (.obj m)) ∧
    ∀ (q q' : Query) (e e' : Expr) (ps : List (Text × Expr)) (v : Value) (shared : Sharing),
      q.env.registry = r → q'.env.registry = r → q.limit = q'.limit →
      q.expr = some e → e.bare = (Expr.hash ps 0).bare →
      q'.expr = some e' → e'.bare = (Expr.call "merge" (ps.map fun p => .hash [p] 0) 0).bare →
      ps ≠ [] → v.isNull = false → ¬ ReachesLimit (q.search v shared) →
      ¬ ReachesLimit (q'.search v shared) →
      SameEnd (q.search v shared) (q'.search v shared) := by
  refine ⟨?_, ?_⟩
  · rintro env rfl steps depth offset merged
    refine ⟨fun os => Builtin.invoke_merge_order hm steps depth offset, ?_⟩
    intro a b c ha hb hc
    exact Builtin.invoke_merge_assoc hm steps depth offset ha hb hc
  · intro q q' e e' ps v shared hq hq' hl he hb he' hb' hn hv h h'
    have hlax : Lax Failure.IsLimit := fun _ hf => hf
    obtain ⟨ps₁, o, rfl⟩ := bare_eq_hash hb
    obtain ⟨args, o', rfl⟩ := bare_eq_call hb'
    rw [Expr.bare, Expr.bare, Expr.hash.injEq] at hb
    rw [Expr.bare, Expr.bare, Expr.call.injEq] at hb'
    have hn₁ : ps₁ ≠ [] := by
      rintro rfl
      have hnil := hb.1
      rw [barePairs_eq_map, barePairs_eq_map, List.map_nil, eq_comm, List.map_eq_nil_iff] at hnil
      exact hn hnil
    have hreg : (q.env shared).registry = r := hq
    have hreg' : (q'.env shared).registry = r := hq'
    have hshared : (q.env shared).shared = (q'.env shared).shared := rfl
    have hat : ∀ steps steps',
        MatchesAt Failure.IsLimit (q.env shared) (q'.env shared) steps steps' := fun _ _ =>
      eval_matches (hreg.trans hreg'.symm) (hreg ▸ hs) (.inl hlax) hshared (.inl hlax)
    have hmatches : Matches Failure.IsLimit Like (q.run v shared) (q'.run v shared) := by
      rw [Query.run, Query.run, he, he']
      exact matches_merge hlax hat hv (hreg' ▸ hm) (forall₂_holds hb.1 hb'.2.1) hn₁ o o' _ _
    have htold : Tells q.limit (q.run v shared) (q.search v shared) := Query.search_told v shared
    have htold' : Tells q.limit (q'.run v shared) (q'.search v shared) :=
      hl ▸ Query.search_told v shared
    exact sameEnd_of_matches hmatches htold htold' (not_isLimit_of_tells htold h)
      (not_isLimit_of_tells htold' h')

/-- A key that is written twice, with another one in between. -/
theorem search_merge_repeated_key :
    let source : Text := "\x7ba: x, b: y, a: z\x7d"
    let merging : Text := "merge(\x7ba: x\x7d, \x7bb: y\x7d, \x7ba: z\x7d)"
    let v : Value := .obj [("x", .str "1"), ("y", .str "2"), ("z", .str "3")]
    let found : Value := .obj [("a", .str "3"), ("b", .str "2")]
    ∃ q q', Query.compile source none defaultLimit = .ok q ∧
      Query.compile merging none defaultLimit = .ok q' ∧
      Registry.standard.SteadyUpTo Failure.IsLimit ∧ q.search v = .ok found ∧
      SameEnd (q.search v) (q'.search v) := by
  intro source merging v found
  let field (name : Text) (o : Nat) : Expr := .atom (.field name) o
  let e : Expr := .hash [("a", field "x" 4), ("b", field "y" 10), ("a", field "z" 16)] 0
  let e' : Expr := .call "merge" [.hash [("a", field "x" 10)] 6, .hash [("b", field "y" 18)] 14,
    .hash [("a", field "z" 26)] 22] 0
  let q : Query := ⟨source, some e, none, defaultLimit, by decide⟩
  let q' : Query := ⟨merging, some e', none, defaultLimit, by decide⟩
  let ps : List (Text × Expr) := [("a", field "x" 0), ("b", field "y" 0), ("a", field "z" 0)]
  have hq : Query.compile source none defaultLimit = .ok q := rfl
  have hq' : Query.compile merging none defaultLimit = .ok q' := rfl
  have hm : Registry.standard.get? "merge" = Registry.standard.get? "merge" := rfl
  have hs := Registry.standard_steadyUpTo Failure.IsLimit
  have hfound : q.search v = .ok found := rfl
  have hfound' : q'.search v = .ok found := rfl
  have h := (search_merge hm hs).2 q q' e e' ps v .alike rfl rfl rfl rfl rfl rfl rfl nofun rfl
  have hlow : ¬ ReachesLimit (q.search v) := hfound ▸ not_reachesLimit_ok found
  have hlow' : ¬ ReachesLimit (q'.search v) := hfound' ▸ not_reachesLimit_ok found
  exact ⟨q, q', hq, hq', hs, hfound, h hlow hlow'⟩

end JsonQuery
