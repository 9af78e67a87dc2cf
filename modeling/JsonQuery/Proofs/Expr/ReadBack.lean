/-
Trees are read back as they were written.

* `Expr.unsigned` — a tree with the zeros of its literals positive, which is equal to it;
* `Expr.Writable.readsBack` — the grammar reads it from the lexemes of the tree;
* `Expr.Writable.exists_parse`, `parse_text` — so the text of a tree is parsed to an equal tree.
-/
import JsonQuery.Proofs.Expr.Spelling
import JsonQuery.Proofs.Value

namespace JsonQuery

open Grammar JsonQuery.Parser

/-! ### Literals -/

/-- An atom with the zeros of its literal positive. -/
def Atom.unsigned : Atom → Atom
  | .literal value => .literal value.unsigned
  | a => a

namespace Expr

mutual

/-- A tree with the zeros of its literals positive. -/
def unsigned : Expr → Expr
  | .atom a o => .atom a.unsigned o
  | .unary op a o => .unary op (unsigned a) o
  | .binary op a b o => .binary op (unsigned a) (unsigned b) o
  | .filter a p b o => .filter (unsigned a) (unsigned p) (unsigned b) o
  | .list as o => .list (unsignedList as) o
  | .hash ps o => .hash (unsignedPairs ps) o
  | .call f as o => .call f (unsignedList as) o

/-- Trees with the zeros of their literals positive. -/
def unsignedList : List Expr → List Expr
  | [] => []
  | a :: as => unsigned a :: unsignedList as

/-- Keyed trees with the zeros of their literals positive. -/
def unsignedPairs : List (Text × Expr) → List (Text × Expr)
  | [] => []
  | (k, a) :: ps => (k, unsigned a) :: unsignedPairs ps

end

theorem sameList_unsigned {as : List Expr} (h : ∀ a ∈ as, a.same a.unsigned = true) :
    sameList as (unsignedList as) = true := by
  induction as with
  | nil => rfl
  | cons a as ih =>
    obtain ⟨ha, has⟩ := List.forall_mem_cons.mp h
    rw [unsignedList, sameList, ha, ih has]
    rfl

theorem samePairs_unsigned {ps : List (Text × Expr)} (h : ∀ p ∈ ps, p.2.same p.2.unsigned = true) :
    samePairs ps (unsignedPairs ps) = true := by
  induction ps with
  | nil => rfl
  | cons p ps ih =>
    obtain ⟨hp, hps⟩ := List.forall_mem_cons.mp h
    rw [unsignedPairs, samePairs, hp, ih hps, beq_self_eq_true]
    rfl

theorem Selector.same_unsigned {b : Expr} (hb : b.Selector)
    (h : ∀ c ∈ b.children, c.same c.unsigned = true) : b.same b.unsigned = true := by
  cases b with
  | atom x =>
    cases x with
    | field name => exact beq_self_eq_true name
    | index i => exact beq_self_eq_true i
    | identity | current | slice _ | literal _ => exact hb.elim
  | list as => exact sameList_unsigned h
  | hash ps => exact samePairs_unsigned fun p hp => h p.2 (List.mem_map_of_mem hp)
  | call f as =>
    rw [unsigned, same, beq_self_eq_true, Bool.true_and]
    exact sameList_unsigned h
  | unary | binary | filter => exact hb.elim

/-- The signs of zeros do not count. -/
theorem Writable.same_unsigned {e : Expr} (h : e.Writable) : e.same e.unsigned = true := by
  induction h with
  | selector hb _ ih => exact hb.same_unsigned ih
  | current => rfl
  | literal hv => exact Json.same_unsigned _ hv.1
  | not _ ih => exact ih
  | reference _ ih => exact ih
  | infixed j _ _ iha ihb =>
    rw [unsigned, same, iha, ihb, beq_self_eq_true]
    rfl
  | step _ hb _ iha ihb =>
    rw [unsigned, same, iha, hb.same_unsigned ihb]
    rfl
  | items _ ih =>
    rw [unsigned, same, ih]
    rfl
  | @slice a s o o' o'' o''' _ _ ih =>
    have hs : (Expr.binary .step a (.atom (.slice s) o''') o'').same
        (.binary .step a.unsigned (.atom (.slice s) o''') o'') = true := by
      rw [same, ih, same, Atom.same, beq_self_eq_true s]
      rfl
    exact Bool.and_eq_true_iff.mpr ⟨hs, rfl⟩
  | flatten _ ih => exact Bool.and_eq_true_iff.mpr ⟨ih, rfl⟩
  | values _ ih => exact Bool.and_eq_true_iff.mpr ⟨ih, rfl⟩
  | filter _ _ iha ihp =>
    rw [unsigned, same, iha, ihp]
    rfl

/-! ### Readings -/

/-- The lexemes that the text of a tree is read as. -/
def lexemes (e : Expr) : List Lexeme :=
  e.spelling.map Lexeme.unsigned

/-- A tree is read back with enough levels. -/
def ReadsBack (e : Expr) : Prop :=
  ∀ n, e.nesting ≤ n → Reads n 0 e.lexemes e.unsigned.bare []

end Expr

section
variable {n least : Nat} {ts : List Lexeme} {e : Expr}

theorem projected_empty (S : Reading) (least : Nat) : Projected S least [] implicit [] :=
  .stop (by decide)

theorem extension_joint (j : Joint) {left right : Expr} (h : Reads n j.power ts right []) :
    Extension (Reads n) left (.symbol j.symbol :: ts) (.binary j.op left right 0) [] := by
  cases j with
  | compare c => cases c <;> exact .compare rfl h rfl
  | _ => exact .infixed rfl h

theorem reads_operand (hn : 0 < n) (h : ∀ m, n = m + 1 → Operand (Reads m) ts e []) :
    Reads n least ts e [] := by
  obtain ⟨m, rfl⟩ : ∃ m, n = m + 1 := ⟨n - 1, by omega⟩
  exact ⟨e, [], h m rfl, .stop (Nat.zero_le _)⟩

end

namespace Expr

namespace ReadsBack
variable {n least : Nat} {ts : List Lexeme} {a e : Expr} (h : a.ReadsBack)
include h

theorem isIdentity : isIdentity a.unsigned.bare = false :=
  reads_ne (h a.nesting (Nat.le_refl _))

theorem operand (hn : a.nesting ≤ n) (rest : List Lexeme) :
    Operand (Reads n) ((grouped a.spelling).map Lexeme.unsigned ++ rest) a.unsigned.bare rest := by
  rw [JsonQuery.grouped, List.map_cons, List.map_append, List.cons_append, List.append_assoc]
  exact .group (reads_append (h n hn) rfl)

/-- In parentheses a tree is read before whatever does not bind tightly enough. -/
theorem grouped (hn : a.nesting < n) {rest : List Lexeme} (hr : headPower rest ≤ least) :
    Reads n least ((grouped a.spelling).map Lexeme.unsigned ++ rest) a.unsigned.bare rest := by
  obtain ⟨m, rfl⟩ : ∃ m, n = m + 1 := ⟨n - 1, by omega⟩
  exact ⟨_, rest, h.operand (Nat.le_of_lt_succ hn) rest, .stop hr⟩

theorem grouped_nil (hn : a.nesting < n) :
    Reads n least ((JsonQuery.grouped a.spelling).map Lexeme.unsigned) a.unsigned.bare [] := by
  rw [← List.append_nil ((JsonQuery.grouped a.spelling).map Lexeme.unsigned)]
  exact h.grouped hn (Nat.zero_le _)

/-- An operand in parentheses is extended by the operator behind it. -/
theorem extended (hn : a.nesting < n) (hp : 0 < headPower ts)
    (hx : ∀ m, n = m + 1 → Extension (Reads m) a.unsigned.bare ts e []) :
    Reads n 0 ((JsonQuery.grouped a.spelling).map Lexeme.unsigned ++ ts) e [] := by
  obtain ⟨m, rfl⟩ : ∃ m, n = m + 1 := ⟨n - 1, by omega⟩
  exact ⟨_, ts, h.operand (Nat.le_of_lt_succ hn) ts, .more hp (hx m rfl) (.stop (Nat.le_refl 0))⟩

end ReadsBack

/-! ### Several trees -/

section
variable {n : Nat}

theorem elements_spellings {as : List Expr} (hne : as ≠ []) (h : ∀ a ∈ as, a.ReadsBack)
    (hn : nestingList as ≤ n) (rest : List Lexeme) :
    Elements (Reads n)
      ((separated (spellings as)).map Lexeme.unsigned ++ .symbol .rightBracket :: rest)
      (bareList (unsignedList as)) rest := by
  induction as with
  | nil => exact absurd rfl hne
  | cons a as ih =>
    obtain ⟨ha, has⟩ := List.forall_mem_cons.mp h
    rw [nestingList] at hn
    cases as with
    | nil => exact .last (ha.grouped (by omega) (Nat.le_refl 0))
    | cons b as =>
      rw [spellings, spellings, separated, commas, List.map_append, List.append_assoc]
      exact .more (ha.grouped (by omega) (Nat.le_refl 0))
        (ih (List.cons_ne_nil _ _) has (by omega))

theorem pairs_spellings {ps : List (Text × Expr)} (hne : ps ≠ []) (h : ∀ p ∈ ps, p.2.ReadsBack)
    (hn : nestingPairs ps ≤ n) (rest : List Lexeme) :
    Pairs (Reads n)
      ((separated (pairSpellings ps)).map Lexeme.unsigned ++ .symbol .rightBrace :: rest)
      (barePairs (unsignedPairs ps)) rest := by
  induction ps with
  | nil => exact absurd rfl hne
  | cons p ps ih =>
    obtain ⟨hp, hps⟩ := List.forall_mem_cons.mp h
    rw [nestingPairs] at hn
    cases ps with
    | nil => exact .last rfl (hp.grouped (by omega) (Nat.le_refl 0))
    | cons q ps =>
      rw [pairSpellings, pairSpellings, separated, commas, List.map_append, List.append_assoc]
      exact .more rfl (hp.grouped (by omega) (Nat.le_refl 0))
        (ih (List.cons_ne_nil _ _) hps (by omega))

theorem arguments_spellings {as : List Expr} (h : ∀ a ∈ as, a.ReadsBack)
    (hn : nestingList as ≤ n) (rest : List Lexeme) :
    Arguments (Reads n)
      ((separated (spellings as)).map Lexeme.unsigned ++ .symbol .rightParen :: rest)
      (bareList (unsignedList as)) rest := by
  induction as with
  | nil => exact .none
  | cons a as ih =>
    obtain ⟨ha, has⟩ := List.forall_mem_cons.mp h
    rw [nestingList] at hn
    cases as with
    | nil => exact .last (ha.grouped (by omega) (Nat.le_refl 0))
    | cons b as =>
      rw [spellings, spellings, separated, commas, List.map_append, List.append_assoc]
      refine .more (ha.grouped (by omega) (Nat.le_refl 0)) ?_ (ih has (by omega))
      -- The next argument starts with a parenthesis.
      cases as <;> rfl

/-! ### Selectors -/

/-- A call is read wherever its parenthesis binds tightly enough. -/
theorem reads_call {f : Text} {as : List Expr} {o least : Nat} (h : ∀ a ∈ as, a.ReadsBack)
    (hn : nestingList as < n) (hl : least < Lexeme.power (.symbol .leftParen)) :
    Reads n least (Expr.call f as o).lexemes (Expr.call f as o).unsigned.bare [] := by
  obtain ⟨n, rfl⟩ : ∃ m, n = m + 1 := ⟨n - 1, by omega⟩
  have hargs := arguments_spellings h (Nat.le_of_lt_succ hn) []
  rw [lexemes, spelling, List.map_cons, List.map_cons, List.map_append]
  exact ⟨_, _, .identifier, .more hl (.call hargs) (.stop (Nat.zero_le _))⟩

theorem reads_field (name : Text) {o least : Nat} (hn : 0 < n) :
    Reads n least (Expr.atom (.field name) o).lexemes (.atom (.field name) 0) [] :=
  reads_operand hn fun _ _ => .quotedIdentifier rfl

theorem Selector.readsBack {b : Expr} (hb : b.Selector) (h : ∀ c ∈ b.children, c.ReadsBack) :
    b.ReadsBack := by
  intro n hn
  cases b with
  | atom x =>
    cases x with
    | field name => exact reads_field name hn
    | index i => exact reads_operand hn fun _ _ => .bracket rfl (.index .index)
    | identity | current | slice _ | literal _ => exact hb.elim
  | list as =>
    refine reads_operand (Nat.zero_lt_of_lt hn) ?_
    rintro n rfl
    have hes := elements_spellings hb h (Nat.le_of_succ_le_succ hn) []
    obtain ⟨ts, hts⟩ := exists_separated_spellings hb
    rw [hts] at hes
    rw [lexemes, spelling, List.map_cons, List.map_append, hts]
    exact .list rfl rfl hes
  | hash ps =>
    refine reads_operand (Nat.zero_lt_of_lt hn) ?_
    rintro n rfl
    rw [lexemes, spelling, List.map_cons, List.map_append]
    exact .hash (pairs_spellings hb (fun p hp => h p.2 (List.mem_map_of_mem hp))
      (Nat.le_of_succ_le_succ hn) [])
  | call f as => exact reads_call h hn (by decide)
  | unary | binary | filter => exact hb.elim

/-- The lexemes of a selector where it follows a step. -/
def stepLexemes (b : Expr) : List Lexeme :=
  (if b.isBracketed then b.spelling else .symbol .dot :: b.spelling).map Lexeme.unsigned

/-- A selector is read where it follows a step. -/
theorem Selector.extension {b : Expr} (hb : b.Selector) (h : ∀ c ∈ b.children, c.ReadsBack)
    (hn : (if b.selects then b.nesting else b.nesting + 1) ≤ n + 1) {left : Expr}
    (hl : isIdentity left = false) :
    Extension (Reads n) left b.stepLexemes (.binary .step left b.unsigned.bare 0) [] := by
  cases b with
  | atom x =>
    cases x with
    | field name =>
      exact .step rfl (.expr rfl (reads_field name (o := 0) (Nat.le_of_succ_le_succ hn)))
    | index i =>
      have hi : Bracketed (Reads n) left [.number i, .symbol .rightBracket]
          (indexed left (.index i)) [] := .index .index
      rw [indexed, if_neg (by rw [hl]; exact Bool.false_ne_true)] at hi
      exact .bracket rfl hi
    | identity | current | slice _ | literal _ => exact hb.elim
  | list as =>
    have hes := elements_spellings hb h (Nat.le_of_succ_le_succ hn) []
    refine .step rfl ?_
    rw [spelling, List.map_cons, List.map_append]
    exact .list hes
  | hash ps =>
    have hps := pairs_spellings hb (fun p hp => h p.2 (List.mem_map_of_mem hp))
      (Nat.le_of_succ_le_succ hn) []
    refine .step rfl ?_
    rw [spelling, List.map_cons, List.map_append]
    exact .hash hps
  | call f as =>
    exact .step rfl (.expr rfl (reads_call (o := 0) h (Nat.le_of_succ_le_succ hn) (by decide)))
  | unary | binary | filter => exact hb.elim

theorem Selector.headPower_pos {b : Expr} (hb : b.Selector) : 0 < headPower b.stepLexemes := by
  cases b with
  | atom x =>
    cases x with
    | field | index => exact Nat.succ_pos _
    | identity | current | slice _ | literal _ => exact hb.elim
  | unary | binary | filter => exact hb.elim
  | _ => exact Nat.succ_pos _

end

/-! ### Trees -/

theorem map_unsigned_sliceLexemes (start stop step : Option Int) (rest : List Lexeme) :
    (sliceLexemes start stop (some step) ++ rest).map Lexeme.unsigned =
      sliceLexemes start stop (some step) ++ rest.map Lexeme.unsigned := by
  cases start <;> cases stop <;> cases step <;> rfl

/-- A tree that can be written is read back. -/
theorem Writable.readsBack {e : Expr} (h : e.Writable) : e.ReadsBack := by
  induction h with
  | selector hb _ ih => exact hb.readsBack ih
  | current => exact fun n hn => reads_operand hn fun _ _ => .current
  | literal => exact fun n hn => reads_operand hn fun _ _ => .literal
  | @not a _ _ ih =>
    intro n hn
    rw [nesting] at hn
    exact reads_operand (by omega) fun m hm => .not (ih.grouped_nil (by omega))
  | @reference a _ _ ih =>
    intro n hn
    rw [nesting] at hn
    exact reads_operand (by omega) fun m hm => .reference (ih.grouped_nil (by omega))
  | infixed j _ _ iha ihb =>
    intro n hn
    rw [nesting_infixed] at hn
    rw [lexemes, spelling_infixed, List.map_append]
    exact iha.extended (by omega) j.power_pos fun m hm =>
      extension_joint j (ihb.grouped_nil (by omega))
  | step _ hb _ iha ihb =>
    intro n hn
    rw [nesting] at hn
    rw [lexemes, spelling, List.map_append]
    exact iha.extended (by omega) hb.headPower_pos fun m hm =>
      hb.extension ihb (by omega) iha.isIdentity
  | items ha ih =>
    intro n hn
    have hs := ha.startsProjection
    rw [nesting, hs, if_neg Bool.false_ne_true] at hn
    rw [lexemes, spelling, hs, if_neg Bool.false_ne_true, List.map_append]
    exact ih.extended hn (Nat.succ_pos _) fun _ _ => .items (projected_empty _ _)
  | @slice a s _ _ _ _ _ _ ih =>
    intro n hn
    rw [nesting_slice] at hn
    have hb (m : Nat) : Bracketed (Reads m) a.unsigned.bare
        (sliceLexemes s.start s.stop (some s.step) ++ [.symbol .rightBracket]) _ [] :=
      .slice (bracket_sliceLexemes s.start s.stop (some s.step) []) (projected_empty _ _)
    rw [indexed, ih.isIdentity, if_neg Bool.false_ne_true] at hb
    rw [lexemes, spelling_slice, List.map_append, List.map_cons, map_unsigned_sliceLexemes]
    exact ih.extended (by omega) (Nat.succ_pos _) fun m _ =>
      .bracket (opensIndex_sliceLexemes _ _ _ _) (hb m)
  | flatten _ ih =>
    intro n hn
    rw [lexemes, spelling_flatten, List.map_append]
    exact ih.extended hn (Nat.succ_pos _) fun _ _ => .flatten (projected_empty _ _)
  | values _ ih =>
    intro n hn
    rw [lexemes, spelling, List.map_append]
    exact ih.extended hn (Nat.succ_pos _) fun _ _ => .values (projected_empty _ _)
  | filter _ _ iha ihp =>
    intro n hn
    rw [nesting] at hn
    rw [lexemes, spelling, List.map_append, List.map_cons, List.map_append]
    exact iha.extended (by omega) (Nat.succ_pos _) fun m hm =>
      .filter (.intro (ihp.grouped (by omega) (Nat.le_refl 0)) (projected_empty _ _))

end Expr

/-- The text of a tree is parsed to the tree, up to offsets and the signs of zeros, if it is not
nested too deeply. -/
theorem Expr.Writable.exists_parse {e : Expr} (h : e.Writable) (hn : e.nesting ≤ nestingLimit) :
    ∃ e', Expr.parse e.text = .ok e' ∧ e'.bare = e.unsigned.bare :=
  (spells_text h.freeStanding.legible).parse_iff.mpr (h.readsBack nestingLimit hn)

/-- The text of a tree is parsed to an equal tree, if it is not nested too deeply. -/
theorem parse_text {e : Expr} (h : e.Writable) (hn : e.nesting ≤ nestingLimit) :
    ∃ e', Expr.parse e.text = .ok e' ∧ e.same e' = true := by
  obtain ⟨e', he, hb⟩ := h.exists_parse hn
  refine ⟨e', he, ?_⟩
  rw [← Expr.same_bare, hb, Expr.same_bare]
  exact h.same_unsigned

/-- The text of a filtered slice, with a quote in a name and a mark in a literal, is read back. -/
theorem parse_filtered_slice :
    let items : Expr := .binary .eachItem
      (.binary .step (.atom (.field "a\"") 0) (.atom (.slice ⟨some 1, none, some (-2)⟩) 0) 0)
      (.atom .identity 0) 0
    let predicate : Expr := .binary (.compare .eq) (.call "type" [.atom .current 0] 0)
      (.atom (.literal (.str "\x60")) 0) 0
    let e : Expr := .filter items predicate (.atom .identity 0) 0
    e.Writable ∧ e.nesting ≤ nestingLimit ∧
      e.text = "((\"a\\\"\")[1::-2])[?((type((@)))==(\x60\"\\\x60\"\x60))]" ∧
      ∃ e', Expr.parse e.text = .ok e' ∧ e.same e' = true := by
  intro items predicate e
  have hitems : items.Writable := .slice (.selector trivial nofun) (by decide)
  have hcall : (Expr.call "type" [.atom .current 0] 0).Writable :=
    .selector rfl fun c hc => List.mem_singleton.mp hc ▸ .current
  have hpredicate : predicate.Writable :=
    .infixed (.compare .eq) hcall (.literal ⟨trivial, by decide⟩)
  have he : e.Writable := .filter hitems hpredicate
  have hn : e.nesting ≤ nestingLimit := by decide
  exact ⟨he, hn, by decide, parse_text he hn⟩

end JsonQuery
