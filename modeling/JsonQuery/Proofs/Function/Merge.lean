/-
Merged objects.

The function that merges objects puts them into one another from the left.  Its arguments pass the
check if there are any and all of them are objects, so the call has a result.

* `Builtin.invoke_merge` — the objects that are given are put into one another;
* `Builtin.invoke_merge_order` — which keys and values come out;
* `Builtin.invoke_merge_assoc` — three objects may be merged in any grouping.
-/
import JsonQuery.Proofs.Entries
import JsonQuery.Proofs.Function.Sound

namespace JsonQuery

open Run

namespace Builtin

/-- Arguments that are all of the type that is asked for pass the check. -/
theorem checkTypes_oneOrMore_ok {name : Text} {input output : ParameterType} {xs : List Value}
    (h : ∀ x ∈ xs, input.accepts x = true) (position : Nat) :
    (oneOrMore input output).checkTypes name position xs = .ok () := by
  induction xs generalizing position with
  | nil => rfl
  | cons x xs ih =>
    obtain ⟨hx, hxs⟩ := List.forall_mem_cons.mp h
    rw [Signature.checkTypes, expected?_oneOrMore]
    dsimp only
    rw [if_pos hx, ih hxs]

theorem check_oneOrMore_ok {name : Text} {input output : ParameterType} {xs : List Value}
    (hn : xs ≠ []) (h : ∀ x ∈ xs, input.accepts x = true) :
    (oneOrMore input output).check name xs = .ok () := by
  have hlen : 0 < xs.length := List.length_pos_of_ne_nil hn
  rw [Signature.check, if_neg]
  · exact checkTypes_oneOrMore_ok h 0
  · simp only [oneOrMore, Signature.minArity, List.length_singleton, Option.isNone_some,
      Bool.false_eq_true, false_and, or_false]
    omega

/-- The objects that are given are put into one another, from the left. -/
theorem invoke_merge {env : Env}
    (hm : env.registry.get? "merge" = Registry.standard.get? "merge") {os : List (Entries Value)}
    (hn : os ≠ []) (steps depth : Nat) (offset : Int) :
    invoke env (steps + 1) depth offset "merge" (os.map .obj) =
      Pure.pure (.obj (os.foldl Entries.update [])) := by
  have hget : env.registry.get? "merge" =
      some ⟨oneOrMore (.one .object) (.one .object), merge⟩ := hm.trans rfl
  have hcheck : (oneOrMore (.one .object) (.one .object)).check "merge" (os.map .obj) = .ok () := by
    refine check_oneOrMore_ok (fun h => hn (List.map_eq_nil_iff.mp h)) ?_
    intro x hx
    obtain ⟨es, -, rfl⟩ := List.mem_map.mp hx
    rfl
  have hparts : (os.map Data.obj).mapM (need entries?) = Pure.pure os := by
    have hpart (es : Entries Value) : need entries? (.obj es) = Pure.pure (id es) := rfl
    rw [mapM_map hpart os, List.map_id]
  rw [invoke_eq_body hget hcheck]
  simp only [merge, hparts, pure_bind]

section
variable {env : Env} (hm : env.registry.get? "merge" = Registry.standard.get? "merge")
  (steps depth : Nat) (offset : Int)
include hm

/-- Every key of merged objects comes out once, at the place of its first occurrence and with the
value of its last. -/
theorem invoke_merge_order {os : List (Entries Value)} (hn : os ≠ [])
    (hk : ∀ o ∈ os, (Entries.keys o).Nodup) :
    ∃ m, (invoke env (steps + 1) depth offset "merge" (os.map .obj)).outcome = .ok (.obj m) ∧
      Entries.keys m = (os.flatMap Entries.keys).eraseDups ∧ (Entries.keys m).Nodup ∧
      ∀ key, Entries.get? m key = os.reverse.findSome? fun o => Entries.get? o key := by
  refine ⟨os.foldl Entries.update [], ?_, ?_, ?_, ?_⟩
  · rw [invoke_merge hm hn]
    rfl
  · have hnil : Entries.keys ([] : Entries Value) = [].eraseDups := rfl
    exact Entries.keys_foldl_update [] os hnil
  · exact Entries.nodup_keys_foldl_update [] os List.nodup_nil
  · intro key
    rw [Entries.get?_foldl_update [] os hk, Entries.get?_nil, Option.or_none]

/-- Three objects may be merged in any grouping. -/
theorem invoke_merge_assoc {a b c : Entries Value} (ha : (Entries.keys a).Nodup)
    (hb : (Entries.keys b).Nodup) (hc : (Entries.keys c).Nodup) :
    let merged := fun os : List (Entries Value) =>
      (invoke env (steps + 1) depth offset "merge" (os.map .obj)).outcome
    ∃ ab bc m, merged [a, b] = .ok (.obj ab) ∧ merged [b, c] = .ok (.obj bc) ∧
      merged [a, b, c] = .ok (.obj m) ∧ merged [ab, c] = .ok (.obj m) ∧
      merged [a, bc] = .ok (.obj m) := by
  intro merged
  have hmerged : ∀ o os, (Entries.keys o).Nodup →
      merged (o :: os) = .ok (.obj (os.foldl Entries.update o)) := by
    intro o os ho
    have hfirst : Entries.update [] o = o := Entries.ofList_of_nodup ho
    have h := congrArg outcome (invoke_merge hm (List.cons_ne_nil o os) steps depth offset)
    rwa [List.foldl_cons, hfirst] at h
  have hab := Entries.nodup_keys_update ha b
  refine ⟨a.update b, b.update c, (a.update b).update c, hmerged a [b] ha, hmerged b [c] hb,
    hmerged a [b, c] ha, hmerged _ [c] hab, ?_⟩
  rw [hmerged a _ ha, ← Entries.update_update ha hb hc]
  rfl

end

end Builtin

end JsonQuery
