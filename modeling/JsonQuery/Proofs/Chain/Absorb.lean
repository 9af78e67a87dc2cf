/-
How far the right side of a projection goes.

A projection reads its right side at a power of its own: 20 for all items and for a leading star,
21 for a filter, 40 for a star after a dot.  At 20 no link is left over.  At 21 the filters, and
at 40 all links but brackets, may be left to whatever stands around the projection;
`pastFilter` and `pastValues` are the links that are left.

* `reads_chain` — an expression that starts with a chain ends between two links of it;
* `projected_star` — at the power of a star all of a chain is read;
* `projected_filter` — at the power of a filter, all but what `pastFilter` tells;
* `projected_dot` — at the power of a dot, all but what `pastValues` tells.
-/
import JsonQuery.Proofs.Chain

namespace JsonQuery

open Grammar JsonQuery.Parser

variable {n : Nat} {left e : Expr} {C : List Link} {rest : List Lexeme}

/-! ### Between two links -/

/-- What starts with a chain is read up to a place between two links. -/
def EndsBetween (n : Nat) : Prop :=
  ∀ ⦃least k C e rest⦄, least < callPower → Link.selects k = false →
    Reads n least (k.undotted ++ chain C) e rest → ∃ D, D <:+ C ∧ rest = chain D

section
variable (hn : EndsBetween n)
include hn

theorem projected_between {least : Nat} (hl : least < callPower)
    (h : Projected (Reads n) least (chain C) e rest) : ∃ D, D <:+ C ∧ rest = chain D := by
  cases C with
  | nil =>
    cases h with
    | stop => exact ⟨[], List.suffix_refl _, rfl⟩
  | cons k C =>
    cases hk : k.selects with
    | false =>
      obtain ⟨D, hD, rfl⟩ := hn hl hk (projected_link hk h)
      exact ⟨D, hD.trans (List.suffix_cons k C), rfl⟩
    | true =>
      cases k with
      | list first more =>
        obtain ⟨_, _, rfl, _⟩ := projected_list h
        exact ⟨C, List.suffix_cons _ C, rfl⟩
      | hash first more =>
        obtain ⟨_, _, rfl, _⟩ := projected_hash h
        exact ⟨C, List.suffix_cons _ C, rfl⟩
      | field | call | values | index | slice | items | filter => cases hk

theorem extends_between {k : Link} (h : k.Extends n left (chain C) e rest) :
    ∃ D, D <:+ C ∧ rest = chain D := by
  have hd : Lexeme.power (.symbol .dot) < callPower := by decide
  cases k with
  | field key =>
    obtain ⟨_, h, _⟩ := h
    exact hn (k := .field key) hd rfl h
  | call name args =>
    obtain ⟨_, h, _⟩ := h
    exact hn (k := .call name args) hd rfl h
  | values =>
    obtain ⟨_, h, _⟩ := h
    exact projected_between hn hd h
  | list first more | hash first more =>
    obtain ⟨_, _, rfl, _⟩ := h
    exact ⟨C, List.suffix_refl C, rfl⟩
  | index i => exact ⟨C, List.suffix_refl C, h.1⟩
  | slice start stop step | items =>
    obtain ⟨_, h, _⟩ := h
    exact projected_between hn (by decide) h
  | filter p =>
    obtain ⟨_, _, _, h, _⟩ := h
    exact projected_between hn (by decide) h

theorem operators_between {least : Nat} (h : Operators (Reads n) least left (chain C) e rest) :
    ∃ D, D <:+ C ∧ rest = chain D := by
  generalize hl : chain C = ls at h
  induction h generalizing C with
  | stop => exact ⟨C, List.suffix_refl C, hl.symm⟩
  | more hp h _ ih =>
    subst hl
    obtain ⟨k, C, rfl, -⟩ := exists_link_of_lt hp
    obtain ⟨D, hD, rfl⟩ := extends_between hn (extension_link h)
    obtain ⟨D', hD', rfl⟩ := ih rfl
    exact ⟨D', (hD'.trans hD).trans (List.suffix_cons k C), rfl⟩

end

/-- An expression that starts with a chain ends between two links of it. -/
theorem reads_chain (n : Nat) : EndsBetween n := by
  induction n with
  | zero =>
    intro least k C e rest _ _ h
    exact h.elim
  | succ n ih =>
    intro least k C e rest hl hk h
    -- The first link is the operand, and the operators after it are links.
    obtain ⟨left, mid, ho, hops⟩ := reads_link hl hk h
    have hm : ∃ D, D <:+ C ∧ mid = chain D := by
      cases k with
      | list | hash => cases hk
      | field => exact ⟨C, List.suffix_refl C, ho.2⟩
      | call =>
        obtain ⟨_, _, _, rfl⟩ := ho
        exact ⟨C, List.suffix_refl C, rfl⟩
      | values =>
        obtain ⟨_, h, _⟩ := ho
        exact projected_between ih (by decide) h
      | index | slice | items | filter => exact extends_between ih (ho.extends rfl)
    obtain ⟨D, hD, rfl⟩ := hm
    obtain ⟨D', hD', rfl⟩ := operators_between ih hops
    exact ⟨D', hD'.trans hD, rfl⟩

/-- At the power of a star an expression reads all of the chain that it starts with. -/
theorem reads_star {k : Link} (hk : k.selects = false)
    (h : Reads n starPower (k.undotted ++ chain C) e rest) : rest = [] := by
  obtain ⟨D, -, rfl⟩ := reads_chain n (by decide) hk h
  rw [chain_of_headPower_le (reads_headPower h), chain]

/-- So at any lower power it reads no more. -/
theorem reads_all {k : Link} (hk : k.selects = false)
    (h : Reads n 0 (k.undotted ++ chain C) e []) :
    Reads n starPower (k.undotted ++ chain C) e [] := by
  cases n with
  | zero => exact h.elim
  | succ n =>
    obtain ⟨e', mid, h, hops⟩ := reads_split (Nat.zero_le starPower) h
    obtain rfl := reads_star hk h
    obtain ⟨rfl, -⟩ := operators_nil hops
    exact h

/-! ### What is left over -/

/-- The power that the right side of a filter asks for. -/
abbrev filterPower : Nat := Lexeme.power (.symbol .filter)

/-- The power that what follows a dot asks for. -/
abbrev dotPower : Nat := Lexeme.power (.symbol .dot)

/-- What operators that bind more tightly than a dot leave of a chain. -/
def pastDot : List Link → List Link
  | .index _ :: C => pastDot C
  | .slice _ _ _ :: _ | .items :: _ => []
  | C => C

mutual

/-- What operators that bind more tightly than a filter leave of a chain. -/
def beforeFilter : List Link → List Link
  | .field _ :: C | .call _ _ :: C | .index _ :: C => beforeFilter C
  | .values :: C => pastFilter C
  | .slice _ _ _ :: _ | .items :: _ => []
  | C => C

/-- What the right side of a filter leaves of a chain: after names and indices, the first filter
that no star hides and all that follows. -/
def pastFilter : List Link → List Link
  | .field _ :: C | .call _ _ :: C | .index _ :: C => beforeFilter C
  | .filter _ :: C => pastFilter C
  | .values :: _ | .slice _ _ _ :: _ | .items :: _ => []
  | C => C

end

/-- What the right side of a star after a dot leaves of a chain: after a name and its brackets,
or after filters, everything. -/
def pastValues : List Link → List Link
  | .field _ :: C | .call _ _ :: C | .index _ :: C => pastDot C
  | .filter _ :: C => pastFilter C
  | .values :: _ | .slice _ _ _ :: _ | .items :: _ => []
  | C => C

/-- What a link leaves of the chain after it. -/
def Link.leaves (C : List Link) : Link → List Link
  | .field _ | .call _ _ => pastDot C
  | .values => pastValues C
  | .filter _ => pastFilter C
  | .slice _ _ _ | .items => []
  | .index _ | .list _ _ | .hash _ _ => C

/-- A chain without selections. -/
def Simple (C : List Link) : Prop :=
  ∀ k ∈ C, k.selects = false

theorem Simple.tail {k : Link} (h : Simple (k :: C)) : Simple C :=
  fun k hk => h k (List.mem_cons_of_mem _ hk)

theorem pastDot_suffix : ∀ C : List Link, pastDot C <:+ C
  | [] => List.suffix_refl _
  | k :: C => by
    cases k with
    | index => exact (pastDot_suffix C).trans (List.suffix_cons _ _)
    | slice | items => exact List.nil_suffix
    | field | call | values | list | hash | filter => exact List.suffix_refl _

theorem pastFilter_suffix : ∀ C : List Link, beforeFilter C <:+ C ∧ pastFilter C <:+ C
  | [] => ⟨List.suffix_refl _, List.suffix_refl _⟩
  | k :: C => by
    have h1 := (pastFilter_suffix C).1.trans (List.suffix_cons k C)
    have h2 := (pastFilter_suffix C).2.trans (List.suffix_cons k C)
    cases k with
    | field | call | index => exact ⟨h1, h1⟩
    | values => exact ⟨h2, List.nil_suffix⟩
    | filter => exact ⟨List.suffix_refl _, h2⟩
    | slice | items => exact ⟨List.nil_suffix, List.nil_suffix⟩
    | list | hash => exact ⟨List.suffix_refl _, List.suffix_refl _⟩

theorem pastValues_suffix (C : List Link) : pastValues C <:+ C := by
  cases C with
  | nil => exact List.suffix_refl _
  | cons k C =>
    cases k with
    | field | call | index => exact (pastDot_suffix C).trans (List.suffix_cons _ _)
    | filter => exact (pastFilter_suffix C).2.trans (List.suffix_cons _ _)
    | values | slice | items => exact List.nil_suffix
    | list | hash => exact List.suffix_refl _

theorem leaves_suffix (k : Link) (C : List Link) : k.leaves C <:+ C := by
  cases k with
  | field | call => exact pastDot_suffix C
  | values => exact pastValues_suffix C
  | filter => exact (pastFilter_suffix C).2
  | slice | items => exact List.nil_suffix
  | index | list | hash => exact List.suffix_refl _

theorem Simple.leaves {k : Link} (h : Simple (k :: C)) : Simple (k.leaves C) :=
  fun l hl => h.tail l ((leaves_suffix k C).subset hl)

/-- A filter stops the operators that bind more tightly, and what is left starts with one. -/
theorem beforeFilter_idem :
    ∀ {C : List Link}, Simple C → beforeFilter (beforeFilter C) = beforeFilter C ∧
      beforeFilter (pastFilter C) = pastFilter C
  | [], _ => ⟨rfl, rfl⟩
  | k :: C, h => by
    obtain ⟨h1, h2⟩ := beforeFilter_idem h.tail
    cases k with
    | field | call | index => exact ⟨h1, h1⟩
    | values => exact ⟨h2, rfl⟩
    | filter => exact ⟨rfl, h2⟩
    | slice | items => exact ⟨rfl, rfl⟩
    | list | hash => cases h _ List.mem_cons_self

theorem beforeFilter_pastDot : ∀ C : List Link, beforeFilter (pastDot C) = beforeFilter C
  | [] => rfl
  | k :: C => by
    cases k with
    | index => exact beforeFilter_pastDot C
    | slice | items => rfl
    | field | call | values | list | hash | filter => rfl

theorem pastDot_pastFilter :
    ∀ {C : List Link}, Simple C → pastDot (beforeFilter C) = beforeFilter C ∧
      pastDot (pastFilter C) = pastFilter C
  | [], _ => ⟨rfl, rfl⟩
  | k :: C, h => by
    obtain ⟨h1, h2⟩ := pastDot_pastFilter h.tail
    cases k with
    | field | call | index => exact ⟨h1, h1⟩
    | values => exact ⟨h2, rfl⟩
    | filter => exact ⟨rfl, h2⟩
    | slice | items => exact ⟨rfl, rfl⟩
    | list | hash => cases h _ List.mem_cons_self

theorem beforeFilter_pastValues (h : Simple C) : beforeFilter (pastValues C) = pastFilter C := by
  cases C with
  | nil => rfl
  | cons k C =>
    cases k with
    | field | call | index => exact beforeFilter_pastDot C
    | filter => exact (beforeFilter_idem h.tail).2
    | values | slice | items => rfl
    | list | hash => cases h _ List.mem_cons_self

/-- How a function tells what operators at a power leave of a chain: links that bind no more
tightly stay, and the others are taken one by one. -/
structure Stops (least : Nat) (f : List Link → List Link) : Prop where
  nil : f [] = []
  stay : ∀ {k C}, Simple (k :: C) → k.power ≤ least → f (k :: C) = k :: C
  take : ∀ {k C}, Simple (k :: C) → least < k.power → f (k.leaves C) = f (k :: C)

theorem stops_filter : Stops filterPower beforeFilter where
  nil := rfl
  stay := by
    intro k C _ hp
    cases k with
    | filter => rfl
    | field | call | values | list | hash | index | slice | items =>
      simp [Link.power, Lexeme.power] at hp
  take := by
    intro k C hC hp
    cases k with
    | field | call => exact beforeFilter_pastDot C
    | values => exact beforeFilter_pastValues hC.tail
    | list | hash => cases hC _ List.mem_cons_self
    | index | slice | items => rfl
    | filter => exact absurd hp (Nat.lt_irrefl _)

theorem stops_dot : Stops dotPower pastDot where
  nil := rfl
  stay := by
    intro k C _ hp
    cases k with
    | field | call | values | list | hash | filter => rfl
    | index | slice | items => simp [Link.power, Lexeme.power] at hp
  take := by
    intro k C _ hp
    cases k with
    | field | call | values | list | hash => exact absurd hp (Nat.lt_irrefl _)
    | index | slice | items => rfl
    | filter => simp [Link.power, Lexeme.power] at hp

/-- Expressions at the powers of filters and dots leave what `pastFilter` and `pastValues` tell. -/
structure Leaves (n : Nat) : Prop where
  filter : ∀ ⦃k C e rest⦄, Simple (k :: C) → Reads n filterPower (k.undotted ++ chain C) e rest →
    rest = chain (pastFilter (k :: C))
  dot : ∀ ⦃k C e rest⦄, Simple (k :: C) → Reads n dotPower (k.undotted ++ chain C) e rest →
    rest = chain (pastValues (k :: C))

theorem projected_nil {least : Nat} (h : Projected (Reads n) least (chain []) e rest) :
    rest = [] := by
  cases h
  rfl

/-- At the power of a star the right side of a projection is all of a chain. -/
theorem projected_star (hC : Simple C) (h : Projected (Reads n) starPower (chain C) e rest) :
    rest = [] := by
  cases C with
  | nil => exact projected_nil h
  | cons k C =>
    have hk := hC k List.mem_cons_self
    exact reads_star hk (projected_link hk h)

section
variable (hn : Leaves n)
include hn

theorem Leaves.projected_filter (hC : Simple C)
    (h : Projected (Reads n) filterPower (chain C) e rest) : rest = chain (pastFilter C) := by
  cases C with
  | nil => exact projected_nil h
  | cons k C => exact hn.filter hC (projected_link (hC k List.mem_cons_self) h)

theorem Leaves.projected_dot (hC : Simple C)
    (h : Projected (Reads n) dotPower (chain C) e rest) : rest = chain (pastValues C) := by
  cases C with
  | nil => exact projected_nil h
  | cons k C => exact hn.dot hC (projected_link (hC k List.mem_cons_self) h)

theorem Leaves.extends {k : Link} (hC : Simple (k :: C))
    (h : k.Extends n left (chain C) e rest) : rest = chain (k.leaves C) := by
  cases k with
  | field | call =>
    obtain ⟨_, h, _⟩ := h
    exact hn.dot hC h
  | values =>
    obtain ⟨_, h, _⟩ := h
    exact hn.projected_dot hC.tail h
  | list | hash => cases hC _ List.mem_cons_self
  | index => exact h.1
  | slice | items =>
    obtain ⟨_, h, _⟩ := h
    exact projected_star hC.tail h
  | filter =>
    obtain ⟨_, _, _, h, _⟩ := h
    exact hn.projected_filter hC.tail h

/-- Operators take link by link, up to the first that binds no more tightly. -/
theorem Leaves.operators {least : Nat} {f : List Link → List Link} (hf : Stops least f)
    (hC : Simple C) (h : Operators (Reads n) least left (chain C) e rest) :
    rest = chain (f C) := by
  generalize hl : chain C = ls at h
  induction h generalizing C with
  | stop hp =>
    subst hl
    cases C with
    | nil => rw [hf.nil]
    | cons k C =>
      rw [chain, Link.headPower_lexemes] at hp
      rw [hf.stay hC hp]
  | more hp h _ ih =>
    subst hl
    obtain ⟨k, C, rfl, hk⟩ := exists_link_of_lt hp
    obtain rfl := hn.extends hC (extension_link h)
    rw [ih hC.leaves rfl, hf.take hC hk]

/-- Where a chain starts an expression, its first link leaves the same as elsewhere, but for
names, which are operands, and for stars, which then take all of the chain. -/
theorem Leaves.opens {k : Link} (hC : Simple (k :: C)) (h : k.Opens n (chain C) e rest) :
    ∃ D, Simple D ∧ rest = chain D ∧ beforeFilter D = pastFilter (k :: C) ∧
      pastDot D = pastValues (k :: C) := by
  cases k with
  | field => exact ⟨C, hC.tail, h.2, rfl, rfl⟩
  | call =>
    obtain ⟨_, _, _, rfl⟩ := h
    exact ⟨C, hC.tail, rfl, rfl, rfl⟩
  | values =>
    obtain ⟨_, h, _⟩ := h
    exact ⟨[], nofun, projected_star hC.tail h, rfl, rfl⟩
  | list | hash => cases hC _ List.mem_cons_self
  | index => exact ⟨C, hC.tail, h.1, rfl, rfl⟩
  | slice | items =>
    obtain ⟨_, h, _⟩ := h
    exact ⟨[], nofun, projected_star hC.tail h, rfl, rfl⟩
  | filter =>
    obtain ⟨_, _, _, h, _⟩ := h
    exact ⟨pastFilter C, hC.leaves, hn.projected_filter hC.tail h,
      (beforeFilter_idem hC.tail).2, (pastDot_pastFilter hC.tail).2⟩

end

theorem leaves (n : Nat) : Leaves n := by
  induction n with
  | zero =>
    constructor
    · intro k C e rest hC h
      exact h.elim
    · intro k C e rest hC h
      exact h.elim
  | succ n ih =>
    -- The operand leaves some `D`, of which the operators at the power leave the same as
    -- `pastFilter` or `pastValues` of the whole chain.
    constructor
    · intro k C e rest hC h
      obtain ⟨left, mid, ho, h⟩ := reads_link (by decide) (hC k List.mem_cons_self) h
      obtain ⟨D, hD, rfl, hd, -⟩ := ih.opens hC ho
      rw [← hd]
      exact ih.operators stops_filter hD h
    · intro k C e rest hC h
      obtain ⟨left, mid, ho, h⟩ := reads_link (by decide) (hC k List.mem_cons_self) h
      obtain ⟨D, hD, rfl, -, hd⟩ := ih.opens hC ho
      rw [← hd]
      exact ih.operators stops_dot hD h

/-- The right side of a filter is all of a chain but what `pastFilter` tells. -/
theorem projected_filter (hC : Simple C) (h : Projected (Reads n) filterPower (chain C) e rest) :
    rest = chain (pastFilter C) :=
  (leaves n).projected_filter hC h

/-- The right side of a star after a dot is all of a chain but what `pastValues` tells. -/
theorem projected_dot (hC : Simple C) (h : Projected (Reads n) dotPower (chain C) e rest) :
    rest = chain (pastValues C) :=
  (leaves n).projected_dot hC h

end JsonQuery
