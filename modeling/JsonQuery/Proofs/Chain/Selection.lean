/-
Selections after a projection.

A selection right after `[*]` is all of the right side of the projection, so the chain after it is
applied once to the array of the results, and not to each of them.

* `operators_steps` — a chain of steps extends any tree by the same right sides;
* `selection_ends_projection` — what a selection and the steps after it give on an array.
-/
import JsonQuery.Proofs.Chain.Projection
import JsonQuery.Proofs.Compile
import JsonQuery.Proofs.Eval.Meaning
import JsonQuery.Proofs.Eval.Agree

namespace JsonQuery

open Grammar JsonQuery.Parser Value

/-- Whether a link is a step to a part of a value or a selection of parts. -/
def Link.steps : Link → Bool
  | .field _ | .index _ | .list _ _ | .hash _ _ => true
  | _ => false

/-- A tree with further steps after it. -/
def stepsFrom (e : Expr) (us : List Expr) : Expr :=
  us.foldl (fun left u => .binary .step left u 0) e

/-- A name, with indices after it. -/
inductive Lookup : Expr → Prop
  | field {name} : Lookup (.atom (.field name) 0)
  | index {e i} : Lookup e → Lookup (.binary .step e (.atom (.index i) 0) 0)

/-- The right sides of steps. -/
inductive IsStep : Expr → Prop
  | lookup {e} : Lookup e → IsStep e
  | index {i} : IsStep (.atom (.index i) 0)
  | list {es} : IsStep (.list es 0)
  | hash {ps} : IsStep (.hash ps 0)

variable {n : Nat} {left e : Expr} {C : List Link} {ts rest : List Lexeme}

theorem indexed_of_ne (hl : isIdentity left = false) (a : Atom) :
    indexed left a = .binary .step left (.atom a 0) 0 := by
  rw [indexed, hl]
  rfl

theorem Lookup.ne (h : Lookup e) : isIdentity e = false := by
  cases h <;> rfl

/-! ### Trees of steps -/

/-- After a name only indices bind more tightly than a dot. -/
theorem operators_lookup (hC : ∀ k ∈ C, k.steps = true) (hl : Lookup left)
    (h : Operators (Reads n) dotPower left (chain C) e rest) : Lookup e := by
  generalize hc : chain C = ls at h
  induction h generalizing C with
  | stop => exact hl
  | more hp h _ ih =>
    subst hc
    obtain ⟨k, C, rfl, hlt⟩ := exists_link_of_lt hp
    have hk := hC k List.mem_cons_self
    have hx := extension_link h
    cases k with
    | call | values | slice | items | filter => cases hk
    | field | list | hash => exact absurd hlt (Nat.lt_irrefl _)
    | index i =>
      obtain ⟨rfl, rfl⟩ := hx
      refine ih (fun k hk => hC k (List.mem_cons_of_mem _ hk)) ?_ rfl
      rw [indexed_of_ne hl.ne]
      exact .index hl

theorem reads_lookup {key : Key} (hC : ∀ k ∈ C, k.steps = true)
    (h : Reads n dotPower (key.lexeme :: chain C) e rest) : Lookup e := by
  cases n with
  | zero => exact h.elim
  | succ n => exact operators_lookup hC .field (reads_key h)

/-- A step extends any tree by the same right side, and leaves the same of the chain after it. -/
theorem extends_step {k : Link} (hk : k.steps = true) (hC : ∀ l ∈ C, l.steps = true)
    (hl : isIdentity left = false) (h : k.Extends n left (chain C) e rest) :
    ∃ u, e = .binary .step left u 0 ∧ IsStep u ∧ (∀ key, k = .field key → Lookup u) ∧
      ∀ m left' e' rest', isIdentity left' = false → k.Extends m left' (chain C) e' rest' →
        e' = .binary .step left' u 0 ∧ rest' = rest := by
  cases k with
  | call | values | slice | items | filter => cases hk
  | field key =>
    obtain ⟨u, hu, rfl⟩ := h
    have hlu := reads_lookup hC hu
    refine ⟨u, rfl, .lookup hlu, fun _ _ => hlu, ?_⟩
    rintro m left' e' rest' - ⟨u', hu', rfl⟩
    obtain ⟨rfl, rfl⟩ := reads_unique hu hu'
    exact ⟨rfl, rfl⟩
  | index i =>
    obtain ⟨rfl, rfl⟩ := h
    refine ⟨_, indexed_of_ne hl _, .index, nofun, ?_⟩
    rintro m left' e' rest' hl' ⟨rfl, rfl⟩
    exact ⟨indexed_of_ne hl' _, rfl⟩
  | list first more =>
    obtain ⟨es, he, rfl, rfl⟩ := h
    refine ⟨_, rfl, .list, nofun, ?_⟩
    rintro m left' e' rest' - ⟨es', he', rfl, rfl⟩
    rw [(elements_unique he he').1]
    exact ⟨rfl, rfl⟩
  | hash first more =>
    obtain ⟨ps, hp, rfl, rfl⟩ := h
    refine ⟨_, rfl, .hash, nofun, ?_⟩
    rintro m left' e' rest' - ⟨ps', hp', rfl, rfl⟩
    rw [(pairs_unique hp hp').1]
    exact ⟨rfl, rfl⟩

/-- A chain of steps extends any tree by the same right sides. -/
theorem operators_steps (hC : ∀ k ∈ C, k.steps = true) (hl : isIdentity left = false)
    (h : Operators (Reads n) 0 left (chain C) e []) :
    ∃ us, e = stepsFrom left us ∧ (∀ u ∈ us, IsStep u) ∧
      (∀ key D, C = .field key :: D → ∃ u us', us = u :: us' ∧ Lookup u) ∧
      ∀ m left' e', isIdentity left' = false → Operators (Reads m) 0 left' (chain C) e' [] →
        e' = stepsFrom left' us := by
  generalize hc : chain C = ls at h
  generalize hr : [] = rest at h
  induction h generalizing C with
  | stop hp =>
    subst hc
    obtain rfl : C = [] := chain_of_headPower_le (Nat.le_trans hp (Nat.zero_le _))
    refine ⟨[], rfl, ?_, ?_, ?_⟩
    · intro u hu
      cases hu
    · intro key D hD
      cases hD
    · intro m left' e' _ h'
      exact (operators_nil h').1
  | more hp h hops ih =>
    subst hc
    obtain ⟨k, C, rfl, -⟩ := exists_link_of_lt hp
    have hx := extension_link h
    -- The first step gives `u` and leaves `D`; both are the same after any other tree.
    obtain ⟨D, hD, rfl⟩ := extends_between (reads_chain _) hx
    have hC' : ∀ l ∈ C, l.steps = true := fun l hl => hC l (List.mem_cons_of_mem _ hl)
    obtain ⟨u, rfl, hu, hkey, huniq⟩ := extends_step (hC k List.mem_cons_self) hC' hl hx
    obtain ⟨us, rfl, hus, -, huniq'⟩ := ih (fun l hl => hC' l (hD.subset hl)) rfl rfl hr
    refine ⟨u :: us, rfl, ?_, ?_, ?_⟩
    · intro w hw
      rcases List.mem_cons.mp hw with rfl | hw
      · exact hu
      · exact hus w hw
    · intro key E hE
      cases hE
      exact ⟨u, us, rfl, hkey key rfl⟩
    · intro m left' e' hl' h'
      obtain ⟨_, _, hx', hops'⟩ := operators_extends h'
      obtain ⟨rfl, rfl⟩ := huniq m left' _ _ hl' hx'
      exact huniq' m _ _ rfl hops'

/-! ### Values of steps -/

variable {shared : Sharing} {r : Registry} {v v' x x' : Value}

/-- Some steps lead from a value to another. -/
def Through (shared : Sharing) (r : Registry) : List Expr → Value → Value → Prop
  | [], v, x => x = v
  | u :: us, v, x => ∃ y, Means shared r u v y ∧ Through shared r us y x

/-- A tree with steps gives what the steps lead to. -/
theorem Means.through {us : List Expr} (h : Means shared r (stepsFrom e us) v x) :
    ∃ y, Means shared r e v y ∧ Through shared r us y x := by
  induction us generalizing e with
  | nil => exact ⟨x, h, rfl⟩
  | cons u us ih =>
    obtain ⟨z, hz, hx⟩ := ih h
    obtain ⟨y, hy, hu⟩ := hz.step
    exact ⟨y, hy, z, hu, hx⟩

theorem Through.unique (hr : r.Steady) {us : List Expr} (hv : Like v v')
    (h : Through shared r us v x) (h' : Through shared r us v' x') : Like x x' := by
  induction us generalizing v v' with
  | nil =>
    obtain rfl : x = v := h
    obtain rfl : x' = v' := h'
    exact hv
  | cons u us ih =>
    obtain ⟨y, hy, h⟩ := h
    obtain ⟨y', hy', h'⟩ := h'
    exact ih (hy.unique hr hv hy') h h'

/-- A name, with indices after it, gives null on what has no fields. -/
theorem Lookup.null {u : Expr} (hu : Lookup u) (hv : ∀ name, v.getField name = .null)
    (h : Means shared r u v x) : x = .null := by
  induction hu generalizing x with
  | field => rw [h.field, hv]
  | index _ ih =>
    obtain ⟨y, hy, h⟩ := h.step
    rw [h.index, ih hy]
    rfl

theorem IsStep.null {u : Expr} (hu : IsStep u) (h : Means shared r u .null x) : x = .null := by
  cases hu with
  | lookup hu => exact hu.null (fun _ => rfl) h
  | index => exact h.index
  | list => exact h.list_null
  | hash => exact h.hash_null

/-- Steps lead from null to null. -/
theorem Through.null {us : List Expr} (hus : ∀ u ∈ us, IsStep u) (h : Through shared r us .null x) :
    x = .null := by
  induction us with
  | nil => exact h
  | cons u us ih =>
    obtain ⟨y, hy, h⟩ := h
    obtain rfl := (hus u List.mem_cons_self).null hy
    exact ih (fun w hw => hus w (List.mem_cons_of_mem _ hw)) h

/-! ### Lists of values -/

theorem likeAll_of_means (hr : r.Steady) {u : Expr} {xs xs' ys ys' : List Value}
    (hx : LikeAll xs xs') (hy : List.Forall₂ (Means shared r u) xs ys)
    (hy' : List.Forall₂ (Means shared r u) xs' ys') : LikeAll ys ys' := by
  induction hx.items generalizing ys ys' with
  | nil =>
    cases hy
    cases hy'
    rfl
  | cons hxx _ ih =>
    cases hy with
    | cons h hy =>
      cases hy' with
      | cons h' hy' =>
        exact likeAll_cons (h.unique hr hxx h') (ih (List.cons.inj hx).2 hy hy')

theorem eq_null_of_like (h : Like x .null) : x = .null := by
  cases h.paired
  rfl

/-! ### Searches -/

/-- A source, compiled and searched with, gives a result on a value. -/
def Searches (shared : Sharing) (registry : Option Registry) (limit : Int) (source : Text)
    (v x : Value) : Prop :=
  ∃ q, Query.compile source registry limit = .ok q ∧ q.search v shared = .ok x

/-- What a search gives, the tree of the source means. -/
theorem Searches.means {registry : Option Registry} {limit : Int} {source : Text}
    {ls : List Lexeme} (hs : Spells source ls) (h : Searches shared registry limit source v x) :
    ∃ b, Reads nestingLimit 0 ls b [] ∧ Means shared (registry.getD .standard) b v x := by
  obtain ⟨q, hq, hx⟩ := h
  obtain ⟨e, he, _, rfl⟩ := Query.compile_eq_ok.mp hq
  rw [Query.search, Query.result, mapError_eq_ok] at hx
  exact ⟨e.bare, hs.parse_iff.mp ⟨e, he, rfl⟩, _, _, _, e, rfl, rfl, rfl, hx⟩

/-! ### A selection after all items -/

/-- What a list says does not depend on what follows it. -/
theorem elements_exchange {ls : List Lexeme} {es : List Expr}
    (h : Elements (Reads n) (ls ++ .symbol .rightBracket :: ts) es ts) (ts' : List Lexeme) :
    Elements (Reads n) (ls ++ .symbol .rightBracket :: ts') es ts' := by
  obtain ⟨t, t', u, hl, hu⟩ := elements_append (local_reads n) h
  rw [List.append_cons] at hl
  rw [List.append_cons, List.append_cancel_right hl]
  exact hu ts'

theorem pairs_exchange {ls : List Lexeme} {ps : List (Text × Expr)}
    (h : Pairs (Reads n) (ls ++ .symbol .rightBrace :: ts) ps ts) (ts' : List Lexeme) :
    Pairs (Reads n) (ls ++ .symbol .rightBrace :: ts') ps ts' := by
  obtain ⟨t, u, hl, hu⟩ := pairs_append (local_reads n) h
  rw [List.append_cons] at hl
  rw [List.append_cons, List.append_cancel_right hl]
  exact hu ts'

/-- A selection is all of the right side of a projection, and it steps to the same values after
any other tree, whatever follows it. -/
theorem projected_selects {least : Nat} {k : Link} (hk : k.selects = true)
    (h : Projected (Reads n) least (k.lexemes ++ ts) e rest) :
    rest = ts ∧ ∀ m left' ts' e' rest', k.Extends m left' ts' e' rest' →
      e' = .binary .step left' e 0 ∧ rest' = ts' := by
  cases k with
  | field | call | values | index | slice | items | filter => cases hk
  | list first more =>
    obtain ⟨es, he, rfl, rfl⟩ := projected_list h
    refine ⟨rfl, ?_⟩
    rintro m left' ts' e' rest' ⟨es', he', rfl, rfl⟩
    rw [(elements_unique (elements_exchange he rest') he').1]
    exact ⟨rfl, rfl⟩
  | hash first more =>
    obtain ⟨ps, hp, rfl, rfl⟩ := projected_hash h
    refine ⟨rfl, ?_⟩
    rintro m left' ts' e' rest' ⟨ps', hp', rfl, rfl⟩
    rw [(pairs_unique (pairs_exchange hp rest') hp').1]
    exact ⟨rfl, rfl⟩

/-- The current value is the operand of what starts with it. -/
theorem operators_current (h : Reads (n + 1) 0 (.symbol .current :: ts) e rest) :
    Operators (Reads n) 0 (.atom .current 0) ts e rest := by
  obtain ⟨left, mid, ho, h⟩ := h
  cases ho
  exact h

/-- Steps from the results of a selection that are not null, against all steps on each item. -/
theorem likeAll_steps (hr : r.Steady) {right : Expr} {us : List Expr} (hus : ∀ u ∈ us, IsStep u)
    {xs ys zs ws : List Value} (hy : List.Forall₂ (Means shared r right) xs ys)
    (hz : List.Forall₂ (fun x z => ∃ y, Means shared r right x y ∧ Through shared r us y z) xs zs)
    (hw : List.Forall₂ (Through shared r us) (nonNull ys) ws) :
    LikeAll (nonNull zs) (nonNull ws) := by
  induction hy generalizing zs ws with
  | nil =>
    cases hz
    cases hw
    rfl
  | @cons x y xs ys hxy _ ih =>
    obtain ⟨z, zs, ⟨y', hy', hyz⟩, hzs, rfl⟩ := List.forall₂_cons_left_iff.mp hz
    have hyy : Like y' y := hy'.unique hr rfl hxy
    rw [nonNull_cons] at hw
    split at hw
    · next hn =>
      -- A null is dropped before the steps on one side, and after them on the other.
      obtain rfl := eq_null_of_isNull hn
      obtain rfl := eq_null_of_like hyy
      obtain rfl := hyz.null hus
      show LikeAll (nonNull zs) (nonNull ws)
      exact ih hzs hw
    · obtain ⟨w, ws, hyw, hws, rfl⟩ := List.forall₂_cons_left_iff.mp hw
      have hzw : Like z w := hyz.unique hr hyy hyw
      exact likeAll_nonNull_cons hzw (ih hzs hws)

/-- After `[*]`, a selection ends the projection.  So the chain gives what the steps after the
selection give on the array of all results, not the results of the steps on each of them.  The
two are the same only if they happen to be; if the first step is a name, only null is given. -/
theorem selection_ends_projection {registry : Option Registry} {limit : Int} {head : Head}
    {S : Link} {C : List Link} {l s c a b : Text} {d y w : Value} {xs ys zs ws : List Value}
    (hreg : (registry.getD .standard).Steady) (hS : S.selects = true)
    (hC : ∀ k ∈ C, k.steps = true) (hl : Spells l head.lexemes)
    (hs : Spells s (head.lexemes ++ (Link.items.lexemes ++ chain (S :: C))))
    (hc : Spells c (.symbol .current :: chain (S :: C)))
    (ha : Spells a (.symbol .current :: chain [S])) (hb : Spells b (.symbol .current :: chain C))
    (hxs : Searches shared registry limit l d (.arr xs)) (hy : Searches shared registry limit s d y)
    (hzs : List.Forall₂ (Searches shared registry limit c) xs zs)
    (hys : List.Forall₂ (Searches shared registry limit a) xs ys)
    (hw : Searches shared registry limit b (.arr (nonNull ys)) w)
    (hws : List.Forall₂ (Searches shared registry limit b) (nonNull ys) ws) :
    Like y w ∧ (Like y (.arr (nonNull zs)) ↔ Like w (.arr (nonNull ws))) ∧
      ∀ key D, C = .field key :: D → y = .null := by
  obtain ⟨T, hT, hTd⟩ := hxs.means hl
  obtain ⟨e, he, hed⟩ := hy.means hs
  obtain ⟨B, hB, hBw⟩ := hw.means hb
  -- The tree of the selection, and those of the steps after it.
  obtain ⟨e', mid, ⟨right, hp, rfl⟩, hops⟩ := extends_head (k := .items) hT he
  obtain ⟨rfl, hsel⟩ := projected_selects hS hp
  obtain ⟨us, rfl, hus, hfield, huniq⟩ := operators_steps hC rfl (operators_current hB)
  obtain rfl := huniq _ _ _ rfl hops
  have hsteps : ∀ v x, Searches shared registry limit b v x →
      Through shared (registry.getD .standard) us v x := by
    intro v x h
    obtain ⟨B', hB', hm⟩ := h.means hb
    obtain rfl := huniq _ _ _ rfl (operators_current hB')
    obtain ⟨_, hv, ht⟩ := hm.through
    rwa [hv.current] at ht
  have hselect : ∀ v x, Searches shared registry limit a v x →
      Means shared (registry.getD .standard) right v x := by
    intro v x h
    obtain ⟨E, hE, hm⟩ := h.means ha
    obtain ⟨e', mid, hx, hops⟩ := operators_extends (operators_current hE)
    obtain ⟨rfl, rfl⟩ := hsel _ _ _ _ _ hx
    cases (operators_nil hops).1
    obtain ⟨_, hv, hm⟩ := hm.step
    rwa [hv.current] at hm
  have hboth : ∀ v x, Searches shared registry limit c v x →
      ∃ y, Means shared (registry.getD .standard) right v y ∧
        Through shared (registry.getD .standard) us y x := by
    intro v x h
    obtain ⟨E, hE, hm⟩ := h.means hc
    obtain ⟨e', mid, hx, hops⟩ := operators_extends (operators_current hE)
    obtain ⟨rfl, rfl⟩ := hsel _ _ _ _ _ hx
    obtain rfl := huniq _ _ _ rfl hops
    obtain ⟨y, hy, ht⟩ := hm.through
    obtain ⟨_, hv, hy'⟩ := hy.step
    rw [hv.current] at hy'
    exact ⟨y, hy', ht⟩
  -- What the projection gives is the array of the selections that are not null.
  obtain ⟨p, hpd, hpy⟩ := hed.through
  obtain ⟨t, ht, hitems⟩ := hpd.eachItem
  cases (ht.unique hreg rfl hTd).paired with
  | @arr items _ hxs' =>
  obtain ⟨qs, hqs, rfl⟩ := hitems items rfl
  have hq := like_arr (likeAll_nonNull (likeAll_of_means hreg hxs' hqs (hys.imp hselect)))
  have hyw : Like y w := hpy.unique hreg hq (hsteps _ _ hw)
  have hzw : LikeAll (nonNull zs) (nonNull ws) :=
    likeAll_steps hreg hus (hys.imp hselect) (hzs.imp hboth) (hws.imp hsteps)
  refine ⟨hyw, ?_, ?_⟩
  · rw [Like, Like, hyw, like_arr hzw]
  · rintro key D hkey
    obtain ⟨u, us', rfl, hu⟩ := hfield key D hkey
    obtain ⟨z, hz, hzy⟩ := hpy
    obtain rfl := hu.null (fun _ => rfl) hz
    exact hzy.null fun w hw => hus w (List.mem_cons_of_mem _ hw)

/-- On one item, `[0]` after the selection gives what `[0]` gives on the item. -/
theorem selection_then_index_on_one_item :
    let item : Value := .obj [("b", .bool true)]
    Searches .alike none defaultLimit "a[*].[b][0]" (.obj [("a", .arr [item])])
        (.arr [.bool true]) ∧
      Searches .alike none defaultLimit "@.[b][0]" item (.bool true) ∧
      Like (.arr [.bool true]) (.arr (nonNull [.bool true])) := by
  intro item
  have hr : ((none : Option Registry).getD .standard).Steady := Registry.standard_steady
  let S : Link := .list ⟨[.identifier "b"], 1, rfl⟩ []
  have hC : ∀ k ∈ [Link.index 0], k.steps = true := by simp [Link.steps]
  have hl : Spells "a" (Head.name ⟨"a", false⟩).lexemes := ⟨_, rfl, rfl⟩
  have hs : Spells "a[*].[b][0]" ((Head.name ⟨"a", false⟩).lexemes ++
      (Link.items.lexemes ++ chain (S :: [.index 0]))) := ⟨_, rfl, rfl⟩
  have hc : Spells "@.[b][0]" (.symbol .current :: chain (S :: [.index 0])) := ⟨_, rfl, rfl⟩
  have ha : Spells "@.[b]" (.symbol .current :: chain [S]) := ⟨_, rfl, rfl⟩
  have hb : Spells "@[0]" (.symbol .current :: chain [.index 0]) := ⟨_, rfl, rfl⟩
  have hxs : Searches .alike none defaultLimit "a" (.obj [("a", .arr [item])]) (.arr [item]) :=
    ⟨_, rfl, rfl⟩
  have hy : Searches .alike none defaultLimit "a[*].[b][0]" (.obj [("a", .arr [item])])
      (.arr [.bool true]) := ⟨_, rfl, rfl⟩
  have hz : Searches .alike none defaultLimit "@.[b][0]" item (.bool true) := ⟨_, rfl, rfl⟩
  have hys : Searches .alike none defaultLimit "@.[b]" item (.arr [.bool true]) := ⟨_, rfl, rfl⟩
  have hw : Searches .alike none defaultLimit "@[0]" (.arr [.arr [.bool true]])
      (.arr [.bool true]) := ⟨_, rfl, rfl⟩
  have hws : Searches .alike none defaultLimit "@[0]" (.arr [.bool true]) (.bool true) :=
    ⟨_, rfl, rfl⟩
  obtain ⟨-, hiff, -⟩ := selection_ends_projection hr rfl hC hl hs hc ha hb hxs
    hy (.cons hz .nil) (.cons hys .nil) hw (.cons hws .nil)
  exact ⟨hy, hz, hiff.mpr rfl⟩

/-- On two items, a name after the selection gives null, and on each item it gives a value. -/
theorem selection_then_name_on_two_items :
    let x₁ : Value := .obj [("b", .bool true)]
    let x₂ : Value := .obj [("b", .bool false)]
    let d : Value := .obj [("a", .arr [x₁, x₂])]
    Searches .alike none defaultLimit "a" d (.arr [x₁, x₂]) ∧
      List.Forall₂ (Searches .alike none defaultLimit "@.{x: b}.x") [x₁, x₂]
        [.bool true, .bool false] ∧
      ¬ Searches .alike none defaultLimit "a[*].{x: b}.x" d
        (.arr (nonNull [.bool true, .bool false])) := by
  refine ⟨⟨_, rfl, rfl⟩, .cons ⟨_, rfl, rfl⟩ (.cons ⟨_, rfl, rfl⟩ .nil), ?_⟩
  rintro ⟨q, hq, hx⟩
  cases hq
  cases hx

end JsonQuery
