/-
Equality of trees is an equivalence.

Trees are compared node by node, without their offsets, and their literals as values.

* `Expr.same_self` — a tree whose literals have distinct keys is equal to itself;
* `Expr.Matched` — the roots of equal trees;
* `Expr.same_equivalence` — equality of trees is an equivalence.
-/
import JsonQuery.Proofs.Data.Equality
import JsonQuery.Proofs.Grammar.Literals

namespace JsonQuery

namespace Expr

theorem DistinctLiterals.child {e c : Expr} (h : e.DistinctLiterals) (hc : c ∈ e.children) :
    c.DistinctLiterals :=
  fun _ _ hj => h (walk_subset (mem_walk_of_mem_children e.mem_walk_self hc) hj)

theorem DistinctLiterals.node {e n : Expr} (h : e.DistinctLiterals) (hn : n ∈ e.walk) :
    n.DistinctLiterals :=
  fun _ _ hj => h (walk_subset hn hj)

theorem DistinctLiterals.unary {op : UnaryOp} {a : Expr} {o : Nat}
    (h : (Expr.unary op a o).DistinctLiterals) : a.DistinctLiterals :=
  h.child (by simp [children])

theorem DistinctLiterals.binary {op : BinaryOp} {a b : Expr} {o : Nat}
    (h : (Expr.binary op a b o).DistinctLiterals) : a.DistinctLiterals ∧ b.DistinctLiterals :=
  ⟨h.child (by simp [children]), h.child (by simp [children])⟩

theorem DistinctLiterals.filter {a p b : Expr} {o : Nat}
    (h : (Expr.filter a p b o).DistinctLiterals) :
    a.DistinctLiterals ∧ p.DistinctLiterals ∧ b.DistinctLiterals :=
  ⟨h.child (by simp [children]), h.child (by simp [children]), h.child (by simp [children])⟩

theorem DistinctLiterals.literal {a : Atom} {o : Nat} (h : (Expr.atom a o).DistinctLiterals) :
    ∀ j, a = .literal j → j.DistinctKeys := by
  rintro j rfl
  exact h (mem_walk_self _)

/-- Equality of atoms is an equivalence of those whose literals have distinct keys. -/
theorem atom_same_equivalence :
    EquivalenceOn (fun a => ∀ j, a = .literal j → j.DistinctKeys) Atom.same := by
  refine .of_euclidean ?_ ?_
  · intro a h
    cases a with
    | literal j => exact Json.same_equivalence.refl (h j rfl)
    | identity | current => rfl
    | field | index | slice => exact BEq.rfl
  · intro a b c ha hb hc hab hac
    cases a <;> cases b <;> simp only [Atom.same, Bool.false_eq_true] at hab <;>
      cases c <;> simp only [Atom.same, Bool.false_eq_true] at hac <;> simp only [Atom.same]
    case literal.literal.literal j k l =>
      exact Json.same_equivalence.euclidean (ha j rfl) (hb k rfl) (hc l rfl) hab hac
    all_goals
      rw [beq_iff_eq] at hab hac ⊢
      exact hab.symm.trans hac

mutual

/-- A tree whose literals have distinct keys is equal to itself. -/
theorem same_self : ∀ e : Expr, e.DistinctLiterals → same e e = true
  | .atom a o, h => by
    rw [same]
    exact atom_same_equivalence.refl h.literal
  | .unary op a o, h => by
    rw [same, same_self a h.unary, BEq.rfl, Bool.true_and]
  | .binary op a b o, h => by
    rw [same, same_self a h.binary.1, same_self b h.binary.2, BEq.rfl, Bool.true_and,
      Bool.true_and]
  | .filter a p b o, h => by
    rw [same, same_self a h.filter.1, same_self p h.filter.2.1, same_self b h.filter.2.2,
      Bool.true_and, Bool.true_and]
  | .list es o, h => by rw [same, sameList_self es fun e he => h.child he]
  | .hash ps o, h => by
    rw [same, samePairs_self ps fun p hp => h.child (List.mem_map_of_mem hp)]
  | .call name es o, h => by
    rw [same, sameList_self es fun e he => h.child he, BEq.rfl, Bool.true_and]

theorem sameList_self : ∀ es : List Expr, (∀ e ∈ es, e.DistinctLiterals) → sameList es es = true
  | [], _ => rfl
  | e :: es, h => by
    obtain ⟨he, hes⟩ := List.forall_mem_cons.mp h
    rw [sameList, same_self e he, sameList_self es hes, Bool.true_and]

theorem samePairs_self :
    ∀ ps : List (Text × Expr), (∀ p ∈ ps, p.2.DistinctLiterals) → samePairs ps ps = true
  | [], _ => rfl
  | (k, e) :: ps, h => by
    obtain ⟨he, hps⟩ := List.forall_mem_cons.mp h
    rw [samePairs, same_self e he, samePairs_self ps hps, BEq.rfl, Bool.true_and, Bool.true_and]

end

/-! ### Roots of equal trees -/

/-- The roots of two equal trees are of one form, and the trees below them are equal. -/
inductive Matched : Expr → Expr → Prop
  | atom {a b o o'} : a.same b = true → Matched (.atom a o) (.atom b o')
  | unary {op a b o o'} : same a b = true → Matched (.unary op a o) (.unary op b o')
  | binary {op a a' b b' o o'} : same a a' = true → same b b' = true →
    Matched (.binary op a b o) (.binary op a' b' o')
  | filter {a a' p p' b b' o o'} : same a a' = true → same p p' = true → same b b' = true →
    Matched (.filter a p b o) (.filter a' p' b' o')
  | list {as bs o o'} : sameList as bs = true → Matched (.list as o) (.list bs o')
  | hash {ps qs o o'} : samePairs ps qs = true → Matched (.hash ps o) (.hash qs o')
  | call {name as bs o o'} : sameList as bs = true → Matched (.call name as o) (.call name bs o')

theorem matched_of_same {a b : Expr} (h : same a b = true) : Matched a b := by
  cases a <;> cases b <;>
    simp only [same, Bool.and_eq_true, beq_iff_eq, Bool.false_eq_true] at h
  case atom.atom => exact .atom h
  case unary.unary =>
    obtain ⟨rfl, h⟩ := h
    exact .unary h
  case binary.binary =>
    obtain ⟨⟨rfl, ha⟩, hb⟩ := h
    exact .binary ha hb
  case filter.filter => exact .filter h.1.1 h.1.2 h.2
  case list.list => exact .list h
  case hash.hash => exact .hash h
  case call.call =>
    obtain ⟨rfl, h⟩ := h
    exact .call h

-- The induction is on the tree that both are equal to: symmetry and transitivity follow from this
-- one property, and one pass through the nodes is enough.
mutual

/-- Trees that are equal to a third one are equal to each other. -/
theorem same_euclidean : ∀ a b c : Expr, a.DistinctLiterals → b.DistinctLiterals →
    c.DistinctLiterals → same a b = true → same a c = true → same b c = true
  | .atom _ _, _, _, ha, hb, hc, h, h' => by
    cases matched_of_same h with | atom hab =>
    cases matched_of_same h' with | atom hac =>
    rw [same]
    exact atom_same_equivalence.euclidean ha.literal hb.literal hc.literal hab hac
  | .unary _ a _, _, _, ha, hb, hc, h, h' => by
    cases matched_of_same h with | unary hab =>
    cases matched_of_same h' with | unary hac =>
    rw [same, same_euclidean a _ _ ha.unary hb.unary hc.unary hab hac, BEq.rfl, Bool.true_and]
  | .binary _ a b _, _, _, ha, hb, hc, h, h' => by
    cases matched_of_same h with | binary hl hr =>
    cases matched_of_same h' with | binary hl' hr' =>
    have hleft := same_euclidean a _ _ ha.binary.1 hb.binary.1 hc.binary.1 hl hl'
    have hright := same_euclidean b _ _ ha.binary.2 hb.binary.2 hc.binary.2 hr hr'
    rw [same, hleft, hright, BEq.rfl, Bool.true_and, Bool.true_and]
  | .filter a p b _, _, _, ha, hb, hc, h, h' => by
    cases matched_of_same h with | filter hl hm hr =>
    cases matched_of_same h' with | filter hl' hm' hr' =>
    have hleft := same_euclidean a _ _ ha.filter.1 hb.filter.1 hc.filter.1 hl hl'
    have hmiddle := same_euclidean p _ _ ha.filter.2.1 hb.filter.2.1 hc.filter.2.1 hm hm'
    have hright := same_euclidean b _ _ ha.filter.2.2 hb.filter.2.2 hc.filter.2.2 hr hr'
    rw [same, hleft, hmiddle, hright, Bool.true_and, Bool.true_and]
  | .list es _, _, _, ha, hb, hc, h, h' => by
    cases matched_of_same h with | list hab =>
    cases matched_of_same h' with | list hac =>
    rw [same]
    exact sameList_euclidean es _ _ (fun _ he => ha.child he) (fun _ he => hb.child he)
      (fun _ he => hc.child he) hab hac
  | .hash ps _, _, _, ha, hb, hc, h, h' => by
    cases matched_of_same h with | hash hab =>
    cases matched_of_same h' with | hash hac =>
    rw [same]
    exact samePairs_euclidean ps _ _ (fun _ hp => ha.child (List.mem_map_of_mem hp))
      (fun _ hp => hb.child (List.mem_map_of_mem hp))
      (fun _ hp => hc.child (List.mem_map_of_mem hp)) hab hac
  | .call _ es _, _, _, ha, hb, hc, h, h' => by
    cases matched_of_same h with | call hab =>
    cases matched_of_same h' with | call hac =>
    rw [same, BEq.rfl, Bool.true_and]
    exact sameList_euclidean es _ _ (fun _ he => ha.child he) (fun _ he => hb.child he)
      (fun _ he => hc.child he) hab hac

theorem sameList_euclidean : ∀ as bs cs : List Expr, (∀ a ∈ as, a.DistinctLiterals) →
    (∀ b ∈ bs, b.DistinctLiterals) → (∀ c ∈ cs, c.DistinctLiterals) →
    sameList as bs = true → sameList as cs = true → sameList bs cs = true
  | [], [], [], _, _, _, _, _ => rfl
  | a :: as, b :: bs, c :: cs, ha, hb, hc, h, h' => by
    rw [sameList, Bool.and_eq_true] at h h' ⊢
    obtain ⟨ha, has⟩ := List.forall_mem_cons.mp ha
    obtain ⟨hb, hbs⟩ := List.forall_mem_cons.mp hb
    obtain ⟨hc, hcs⟩ := List.forall_mem_cons.mp hc
    exact ⟨same_euclidean a b c ha hb hc h.1 h'.1,
      sameList_euclidean as bs cs has hbs hcs h.2 h'.2⟩

theorem samePairs_euclidean : ∀ ps qs rs : List (Text × Expr), (∀ p ∈ ps, p.2.DistinctLiterals) →
    (∀ q ∈ qs, q.2.DistinctLiterals) → (∀ r ∈ rs, r.2.DistinctLiterals) →
    samePairs ps qs = true → samePairs ps rs = true → samePairs qs rs = true
  | [], [], [], _, _, _, _, _ => rfl
  | (k, a) :: ps, (l, b) :: qs, (m, c) :: rs, ha, hb, hc, h, h' => by
    rw [samePairs, Bool.and_eq_true, Bool.and_eq_true, beq_iff_eq] at h h' ⊢
    obtain ⟨ha, hps⟩ := List.forall_mem_cons.mp ha
    obtain ⟨hb, hqs⟩ := List.forall_mem_cons.mp hb
    obtain ⟨hc, hrs⟩ := List.forall_mem_cons.mp hc
    exact ⟨⟨h.1.1.symm.trans h'.1.1, same_euclidean a b c ha hb hc h.1.2 h'.1.2⟩,
      samePairs_euclidean ps qs rs hps hqs hrs h.2 h'.2⟩

end

/-- Equality of trees is an equivalence of those whose literals have distinct keys. -/
theorem same_equivalence : EquivalenceOn DistinctLiterals same :=
  .of_euclidean (fun e he => same_self e he) fun a b c ha hb hc => same_euclidean a b c ha hb hc

end Expr
end JsonQuery
