/-
Projections and the chains after them.

What stands before a projection is a head, and the chain after it is to be applied to each of its
results.  For all items, slices, flattenings and a leading star that is so: the right side is the
chain as it is parsed by itself.  A star after a dot and a filter stop earlier.

* `projections_absorb_chain` — the right side of these projections is the chain after them;
* `star_after_dot_absorbs_iff` — a star after a dot absorbs a chain if `pastValues` tells so;
* `filter_absorbs_iff` — a filter absorbs a chain if `pastFilter` tells so.
-/
import JsonQuery.Proofs.Chain.Absorb

namespace JsonQuery

open Grammar JsonQuery.Parser

variable {n : Nat} {head : Head} {T e : Expr} {ts rest : List Lexeme} {C : List Link}

/-! ### Heads -/

theorem startsWith_link (k : Link) (ts : List Lexeme) :
    startsWith .leftParen (k.lexemes ++ ts) = false := by
  cases k <;> rfl

/-- A head is the operand of what starts with it. -/
theorem operand_head (hT : Reads (n + 1) 0 head.lexemes T [])
    (hts : startsWith .leftParen ts = false) :
    Operand (Reads n) (head.lexemes ++ ts) T ts := by
  cases head with
  | name key =>
    cases reads_key hT with
    | stop =>
      obtain ⟨name, quoted⟩ := key
      cases quoted with
      | false => exact .identifier
      | true => exact .quotedIdentifier hts
    | more hp => exact absurd hp (Nat.not_lt_zero _)
  | group p =>
    obtain ⟨left, mid, ho, h⟩ := hT
    cases ho with
    | group hg =>
      -- What is in the parentheses may stand before any other closing parenthesis.
      obtain rfl := (List.cons.inj (p.whole.rest_eq rfl hg)).2
      cases h with
      | stop =>
        obtain ⟨t, u, hl, hu⟩ := local_reads n hg
        have hp : p.lexemes = t :: u := List.append_cancel_right hl
        rw [Head.lexemes, List.cons_append, List.append_assoc, List.singleton_append, hp]
        exact .group (hu (.symbol .rightParen :: ts) (givesWay_cons _ _ _))
      | more hp => exact absurd hp (Nat.not_lt_zero _)

/-- A head and one extension of it make an expression. -/
theorem reads_head (hT : Reads (n + 1) 0 head.lexemes T [])
    (hts : startsWith .leftParen ts = false) (hp : 0 < headPower ts)
    (h : Extension (Reads n) T ts e []) : Reads (n + 1) 0 (head.lexemes ++ ts) e [] :=
  ⟨T, ts, operand_head hT hts, .more hp h (.stop (Nat.le_refl 0))⟩

/-- What follows a head extends its tree. -/
theorem operators_head (hT : Reads (n + 1) 0 head.lexemes T [])
    (hts : startsWith .leftParen ts = false)
    (h : Reads (n + 1) 0 (head.lexemes ++ ts) e rest) : Operators (Reads n) 0 T ts e rest := by
  obtain ⟨left, mid, ho, h⟩ := h
  obtain ⟨rfl, rfl⟩ := operand_unique ho (operand_head hT hts)
  exact h

/-- A link after a head extends its tree by that link. -/
theorem extends_head {k : Link} (hT : Reads (n + 1) 0 head.lexemes T [])
    (h : Reads (n + 1) 0 (head.lexemes ++ (k.lexemes ++ ts)) e rest) :
    ∃ e' mid, k.Extends n T ts e' mid ∧ Operators (Reads n) 0 e' mid e rest := by
  exact operators_extends (operators_head hT (startsWith_link k ts) h)

/-! ### Right sides -/

/-- What starts an expression also starts the right side of a projection. -/
theorem projected_of_reads {least : Nat} {k : Link} (hk : k.selects = false)
    (h : Reads n least (k.undotted ++ ts) e rest) :
    Projected (Reads n) least (k.lexemes ++ ts) e rest := by
  cases k with
  | list | hash => cases hk
  | field key =>
    obtain ⟨name, quoted⟩ := key
    cases quoted <;> exact .dot (.expr rfl h)
  | call | values => exact .dot (.expr rfl h)
  | index | slice | items => exact .bracket h
  | filter => exact .filter h

/-- At a higher power the right side of a projection is the same if nothing is left over. -/
theorem projected_of_le {least least' : Nat} (hl : least ≤ least')
    (hC : Simple C) (h : Projected (Reads n) least (chain C) e [])
    (h' : ∀ {e' mid}, Projected (Reads n) least' (chain C) e' mid → mid = []) :
    Projected (Reads n) least' (chain C) e [] := by
  cases C with
  | nil =>
    cases h with
    | stop hp => exact .stop hp
  | cons k C =>
    have hk := hC k List.mem_cons_self
    have hr := projected_link hk h
    cases n with
    | zero => exact hr.elim
    | succ n =>
      obtain ⟨e', mid, hr, hops⟩ := reads_split hl hr
      have hp := projected_of_reads hk hr
      obtain rfl := h' hp
      obtain ⟨rfl, -⟩ := operators_nil hops
      exact hp

/-! ### Left sides -/

/-- How many operators the leftmost operand of a tree is under. -/
def spine : Expr → Nat
  | .binary _ left _ _ => spine left + 1
  | .filter left _ _ _ => spine left + 1
  | _ => 0

theorem spine_indexed (hT : isIdentity T = false) (a : Atom) :
    spine (indexed T a) = spine T + 1 := by
  rw [indexed, hT]
  rfl

/-- A link puts the tree before it under an operator. -/
theorem extends_spine {k : Link} {left : Expr} (hl : isIdentity left = false)
    (h : k.Extends n left ts e rest) : spine left < spine e ∧ isIdentity e = false := by
  cases k with
  | field | call | values | items =>
    obtain ⟨_, _, rfl⟩ := h
    exact ⟨Nat.lt_succ_self _, rfl⟩
  | list | hash =>
    obtain ⟨_, _, _, rfl⟩ := h
    exact ⟨Nat.lt_succ_self _, rfl⟩
  | index i =>
    obtain ⟨_, rfl⟩ := h
    exact ⟨by rw [spine_indexed hl]; exact Nat.lt_succ_self _, indexed_ne left (by nofun)⟩
  | slice =>
    obtain ⟨_, _, rfl⟩ := h
    refine ⟨?_, rfl⟩
    rw [spine, spine_indexed hl]
    omega
  | filter =>
    obtain ⟨_, _, _, _, rfl⟩ := h
    exact ⟨Nat.lt_succ_self _, rfl⟩

/-- If a chain leaves the number of operators over the leftmost operand, it is not read. -/
theorem operators_spine {least : Nat} {left : Expr} (hl : isIdentity left = false)
    (h : Operators (Reads n) least left (chain C) e rest) :
    spine left ≤ spine e ∧ (spine left = spine e → rest = chain C) := by
  generalize hc : chain C = ls at h
  induction h generalizing C with
  | stop => exact ⟨Nat.le_refl _, fun _ => rfl⟩
  | more hp h _ ih =>
    subst hc
    obtain ⟨k, C, rfl, -⟩ := exists_link_of_lt hp
    have hk := extension_link h
    obtain ⟨hlt, hid⟩ := extends_spine hl hk
    obtain ⟨D, -, rfl⟩ := extends_between (reads_chain n) hk
    obtain ⟨hle, -⟩ := ih hid rfl
    constructor
    · omega
    · intro he
      omega

/-- So a chain that is read to its end and leaves their number is empty. -/
theorem eq_nil_of_spine {least : Nat} {left : Expr} (hl : isIdentity left = false)
    (h : Operators (Reads n) least left (chain C) e []) (hs : spine left = spine e) : C = [] := by
  have hnil : [] = chain C := (operators_spine hl h).2 hs
  refine chain_of_headPower_le ?_
  rw [← hnil]
  exact Nat.zero_le _

/-! ### Chains after projections -/

section
variable {k : Link} {R : Expr}

theorem reads_items (hT : Reads (n + 1) 0 head.lexemes T [])
    (hR : Projected (Reads n) starPower ts R []) :
    Reads (n + 1) 0 (head.lexemes ++ (Link.items.lexemes ++ ts)) (.binary .eachItem T R 0) [] :=
  reads_head hT rfl (Nat.zero_lt_succ _) (.items hR)

theorem reads_flatten (hT : Reads (n + 1) 0 head.lexemes T [])
    (hR : Projected (Reads n) (Lexeme.power (.symbol .flatten)) ts R []) :
    Reads (n + 1) 0 (head.lexemes ++ .symbol .flatten :: ts)
      (.binary .eachItem (.unary .flatten T 0) R 0) [] :=
  reads_head hT rfl (Nat.zero_lt_succ _) (.flatten hR)

theorem reads_slice {start stop : Option Int} {step : Option (Option Int)}
    (hT : Reads (n + 1) 0 head.lexemes T []) (hR : Projected (Reads n) starPower ts R []) :
    Reads (n + 1) 0 (head.lexemes ++ ((Link.slice start stop step).lexemes ++ ts))
      (.binary .eachItem (.binary .step T (.atom (.slice ⟨start, stop, step.join⟩) 0) 0) R 0)
      [] := by
  refine reads_head hT rfl (Nat.zero_lt_succ _) ?_
  have hi : indexed T (.slice ⟨start, stop, step.join⟩) =
      .binary .step T (.atom (.slice ⟨start, stop, step.join⟩) 0) 0 := by
    rw [indexed, reads_ne hT]
    rfl
  rw [Link.lexemes_of_not_dotted rfl, Link.undotted, List.cons_append, List.append_assoc,
    List.singleton_append, ← hi]
  exact .bracket (opensIndex_sliceLexemes _ _ _ _)
    (.slice (bracket_sliceLexemes start stop step ts) hR)

theorem reads_values (hR : Projected (Reads n) starPower ts R []) :
    Reads (n + 1) 0 (.symbol .star :: ts) (.binary .eachValue implicit R 0) [] :=
  ⟨_, [], .values hR, .stop (Nat.le_refl 0)⟩

theorem reads_filter {p : Phrase} {P : Expr} (hT : Reads (n + 1) 0 head.lexemes T [])
    (hP : Reads n 0 p.lexemes P []) (hR : Projected (Reads n) filterPower ts R []) :
    Reads (n + 1) 0 (head.lexemes ++ ((Link.filter p).lexemes ++ ts)) (.filter T P R 0) [] := by
  refine reads_head hT rfl (Nat.zero_lt_succ _) ?_
  obtain ⟨t, u, hl, hu⟩ := local_reads n hP
  rw [List.append_nil] at hl
  rw [Link.lexemes_of_not_dotted rfl, Link.undotted, List.cons_append, List.append_assoc,
    List.singleton_append, hl]
  exact .filter (.intro (hu _ (.inr rfl)) hR)

end

/-- For all items, flattenings, slices and a leading star, the right side of the projection is the
chain after it, as it is parsed by itself. -/
theorem projections_absorb_chain {head : Head} {k : Link} {C : List Link} {l c : Text}
    {T R : Expr} (hk : k.selects = false) (hl : Spells l head.lexemes)
    (hT : Expr.parse l = .ok T) (hc : Spells c (undotted (k :: C)))
    (hR : Parses (nestingLimit - 1) c R) :
    (∀ s, Spells s (head.lexemes ++ (Link.items.lexemes ++ chain (k :: C))) →
      ∃ e, Expr.parse s = .ok e ∧ e.bare = (Expr.binary .eachItem T R 0).bare) ∧
    (∀ s, Spells s (head.lexemes ++ .symbol .flatten :: chain (k :: C)) →
      ∃ e, Expr.parse s = .ok e ∧
        e.bare = (Expr.binary .eachItem (.unary .flatten T 0) R 0).bare) ∧
    (∀ start stop step s,
      Spells s (head.lexemes ++ ((Link.slice start stop step).lexemes ++ chain (k :: C))) →
      ∃ e, Expr.parse s = .ok e ∧ e.bare = (Expr.binary .eachItem
        (.binary .step T (.atom (.slice ⟨start, stop, step.join⟩) 0) 0) R 0).bare) ∧
    (∀ s, Spells s (.symbol .star :: chain (k :: C)) →
      ∃ e, Expr.parse s = .ok e ∧
        e.bare = (Expr.binary .eachValue (.atom .identity 0) R 0).bare) := by
  have hT := hl.parse_iff.mp ⟨T, hT, rfl⟩
  have hR := reads_all hk (hc.parses_iff.mp ⟨R, hR, rfl⟩)
  -- Read at the power of a star, the chain is read to its end; so it is at the lower power of a
  -- flattening.
  have star := projected_of_reads hk hR
  have hf : Lexeme.power (.symbol .flatten) ≤ starPower := by decide
  have flat := projected_of_reads hk (reads_lower hf (Nat.zero_le _) hR)
  simp only [Expr.bare]
  refine ⟨?_, ?_, ?_, ?_⟩
  · intro s hs
    exact hs.parse_iff.mpr (reads_items hT star)
  · intro s hs
    exact hs.parse_iff.mpr (reads_flatten hT flat)
  · intro start stop step s hs
    exact hs.parse_iff.mpr (reads_slice hT star)
  · intro s hs
    exact hs.parse_iff.mpr (reads_values star)

/-- The chain `.b.c` after each projection, applied to what `a` gives. -/
theorem projections_absorb_two_names :
    let T : Expr := .atom (.field "a") 0
    let R : Expr := .binary .step (.atom (.field "b") 0) (.atom (.field "c") 0) 0
    (∃ e, Expr.parse "a[*].b.c" = .ok e ∧ e.bare = .binary .eachItem T R 0) ∧
    (∃ e, Expr.parse "a[].b.c" = .ok e ∧
      e.bare = .binary .eachItem (.unary .flatten T 0) R 0) ∧
    (∃ e, Expr.parse "a[1:].b.c" = .ok e ∧ e.bare =
      .binary .eachItem (.binary .step T (.atom (.slice ⟨some 1, none, none⟩) 0) 0) R 0) ∧
    ∃ e, Expr.parse "*.b.c" = .ok e ∧ e.bare = .binary .eachValue (.atom .identity 0) R 0 := by
  have hl : Spells "a" (Head.name ⟨"a", false⟩).lexemes := ⟨_, rfl, rfl⟩
  have hc : Spells "b.c" (undotted [.field ⟨"b", false⟩, .field ⟨"c", false⟩]) := ⟨_, rfl, rfl⟩
  have hR : Parses (nestingLimit - 1) "b.c"
      (.binary .step (.atom (.field "b") 0) (.atom (.field "c") 2) 1) := ⟨_, rfl, rfl⟩
  obtain ⟨items, flatten, slice, values⟩ := projections_absorb_chain rfl hl rfl hc hR
  exact ⟨items _ ⟨_, rfl, rfl⟩, flatten _ ⟨_, rfl, rfl⟩, slice (some 1) none none _ ⟨_, rfl, rfl⟩,
    values _ ⟨_, rfl, rfl⟩⟩

/-- A star after a dot has the right side that a leading star has before the same chain, if and
only if `pastValues` leaves nothing of the chain. -/
theorem star_after_dot_absorbs_iff {head : Head} {C : List Link} {l c s : Text} {T R : Expr}
    (hC : Simple C) (hl : Spells l head.lexemes) (hT : Expr.parse l = .ok T)
    (hc : Spells c (.symbol .star :: chain C))
    (hR : ∃ e, Expr.parse c = .ok e ∧
      e.bare = (Expr.binary .eachValue (.atom .identity 0) R 0).bare)
    (hs : Spells s (head.lexemes ++ (Link.values.lexemes ++ chain C))) :
    (∃ e, Expr.parse s = .ok e ∧ e.bare = (Expr.binary .eachValue T R 0).bare) ↔
      pastValues C = [] := by
  have hT := hl.parse_iff.mp ⟨T, hT, rfl⟩
  have hR := hc.parse_iff.mp hR
  rw [hs.parse_iff]
  simp only [Expr.bare] at hR ⊢
  have hR : Projected (Reads (nestingLimit - 1)) starPower (chain C) R.bare [] := by
    obtain ⟨left, mid, ho, h⟩ := hR
    cases ho with
    | values hp =>
      obtain rfl := projected_star hC hp
      cases (operators_nil h).1
      exact hp
  constructor
  · intro h
    -- What is left of the chain extends the projection, so nothing may be left.
    obtain ⟨e', mid, ⟨right, hp, rfl⟩, hops⟩ := extends_head (k := .values) hT h
    obtain rfl := projected_dot hC hp
    exact eq_nil_of_spine rfl hops rfl
  · intro hd
    -- If nothing is left, the right side does not depend on the power it is read at.
    refine reads_head hT rfl (Nat.zero_lt_succ _) (.values ?_)
    refine projected_of_le (by decide) hC hR ?_
    intro _ _ hp
    rw [projected_dot hC hp, hd, chain]

/-- After a name only indices are absorbed, and in `a.*.b[0]` there are no other links. -/
theorem star_after_dot_absorbs_index :
    ∃ e, Expr.parse "a.*.b[0]" = .ok e ∧ e.bare =
      .binary .eachValue (.atom (.field "a") 0)
        (.binary .step (.atom (.field "b") 0) (.atom (.index 0) 0) 0) 0 := by
  let C : List Link := [.field ⟨"b", false⟩, .index 0]
  have hC : Simple C := by simp [C, Simple, Link.selects]
  have hl : Spells "a" (Head.name ⟨"a", false⟩).lexemes := ⟨_, rfl, rfl⟩
  have hc : Spells "*.b[0]" (.symbol .star :: chain C) := ⟨_, rfl, rfl⟩
  have hs : Spells "a.*.b[0]"
      ((Head.name ⟨"a", false⟩).lexemes ++ (Link.values.lexemes ++ chain C)) := ⟨_, rfl, rfl⟩
  exact (star_after_dot_absorbs_iff hC hl rfl hc ⟨_, rfl, rfl⟩ hs).mpr rfl

/-- A leading star absorbs `.b.c`, and a star after a dot does not. -/
theorem star_after_dot_leaves_name :
    let R : Expr := .binary .step (.atom (.field "b") 0) (.atom (.field "c") 0) 0
    (∃ e, Expr.parse "*.b.c" = .ok e ∧ e.bare = .binary .eachValue (.atom .identity 0) R 0) ∧
    ¬ ∃ e, Expr.parse "a.*.b.c" = .ok e ∧
      e.bare = .binary .eachValue (.atom (.field "a") 0) R 0 := by
  refine ⟨⟨_, rfl, rfl⟩, ?_⟩
  rintro ⟨e, he, hb⟩
  cases he
  cases hb

/-- A filter has the right side that all items have before the same chain, if and only if
`pastFilter` leaves nothing of the chain. -/
theorem filter_absorbs_iff {head : Head} {p : Phrase} {C : List Link} {l q c s : Text}
    {T P R : Expr} (hC : Simple C) (hl : Spells l head.lexemes) (hT : Expr.parse l = .ok T)
    (hq : Spells q p.lexemes) (hP : Parses (nestingLimit - 1) q P)
    (hc : Spells c (head.lexemes ++ (Link.items.lexemes ++ chain C)))
    (hR : ∃ e, Expr.parse c = .ok e ∧ e.bare = (Expr.binary .eachItem T R 0).bare)
    (hs : Spells s (head.lexemes ++ ((Link.filter p).lexemes ++ chain C))) :
    (∃ e, Expr.parse s = .ok e ∧ e.bare = (Expr.filter T P R 0).bare) ↔ pastFilter C = [] := by
  have hT := hl.parse_iff.mp ⟨T, hT, rfl⟩
  have hP := hq.parses_iff.mp ⟨P, hP, rfl⟩
  have hR := hc.parse_iff.mp hR
  rw [hs.parse_iff]
  simp only [Expr.bare] at hR ⊢
  have hR : Projected (Reads (nestingLimit - 1)) starPower (chain C) R.bare [] := by
    obtain ⟨e', mid, ⟨right, hp, rfl⟩, hops⟩ := extends_head (k := .items) hT hR
    obtain rfl := projected_star hC hp
    cases (operators_nil hops).1
    exact hp
  constructor
  · intro h
    obtain ⟨e', mid, ⟨P', right, _, hp, rfl⟩, hops⟩ := extends_head (k := .filter p) hT h
    obtain rfl := projected_filter hC hp
    exact eq_nil_of_spine rfl hops rfl
  · intro hd
    refine reads_filter hT hP (projected_of_le (by decide) hC hR ?_)
    intro _ _ hp
    rw [projected_filter hC hp, hd, chain]

/-- All of `.c.d` is applied to each item that the filter of `a[?b].c.d` keeps. -/
theorem filter_absorbs_two_names :
    ∃ e, Expr.parse "a[?b].c.d" = .ok e ∧ e.bare =
      .filter (.atom (.field "a") 0) (.atom (.field "b") 0)
        (.binary .step (.atom (.field "c") 0) (.atom (.field "d") 0) 0) 0 := by
  let p : Phrase := ⟨[.identifier "b"], 1, rfl⟩
  let C : List Link := [.field ⟨"c", false⟩, .field ⟨"d", false⟩]
  have hC : Simple C := by simp [C, Simple, Link.selects]
  have hl : Spells "a" (Head.name ⟨"a", false⟩).lexemes := ⟨_, rfl, rfl⟩
  have hq : Spells "b" p.lexemes := ⟨_, rfl, rfl⟩
  have hP : Parses (nestingLimit - 1) "b" (.atom (.field "b") 0) := ⟨_, rfl, rfl⟩
  have hc : Spells "a[*].c.d"
      ((Head.name ⟨"a", false⟩).lexemes ++ (Link.items.lexemes ++ chain C)) := ⟨_, rfl, rfl⟩
  have hs : Spells "a[?b].c.d"
      ((Head.name ⟨"a", false⟩).lexemes ++ ((Link.filter p).lexemes ++ chain C)) := ⟨_, rfl, rfl⟩
  exact (filter_absorbs_iff hC hl rfl hq hP hc ⟨_, rfl, rfl⟩ hs).mpr rfl

/-- In `a[*].c[?d]` the filter is in the projection, and in `a[?b].c[?d]` it is around it. -/
theorem filter_leaves_filter :
    let R : Expr :=
      .filter (.atom (.field "c") 0) (.atom (.field "d") 0) (.atom .identity 0) 0
    (∃ e, Expr.parse "a[*].c[?d]" = .ok e ∧
      e.bare = .binary .eachItem (.atom (.field "a") 0) R 0) ∧
    ¬ ∃ e, Expr.parse "a[?b].c[?d]" = .ok e ∧
      e.bare = .filter (.atom (.field "a") 0) (.atom (.field "b") 0) R 0 := by
  refine ⟨⟨_, rfl, rfl⟩, ?_⟩
  rintro ⟨e, he, hb⟩
  cases he
  cases hb

end JsonQuery
