/-
Sequences of infix operators.

A sequence is an operand, followed by infix operators each with an operand of its own.  Its tree
is split at the last of the loosest operators, and comparisons do not associate.

* `Joint` — the infix operators, with their order;
* `Joint.power_lt_power` — the parser has them in that order;
* `Term` — the operands, with what negates them;
* `Reference` — the tree of a sequence, given without reading it from left to right;
* `Separated` — a looser operator stands between any two comparisons;
* `exists_reference` — then the sequence has a tree.
-/
import JsonQuery.Proofs.Chain

namespace JsonQuery

open Grammar JsonQuery.Parser

/-! ### Operators -/

/-- The infix operators. -/
inductive Joint where
  | pipe
  | or
  | and
  | compare (c : Comparator)

namespace Joint

/-- An operator as it is spelled. -/
def symbol : Joint → Symbol
  | .pipe => .pipe
  | .or => .or
  | .and => .and
  | .compare .eq => .eq
  | .compare .ne => .ne
  | .compare .lt => .lt
  | .compare .le => .le
  | .compare .gt => .gt
  | .compare .ge => .ge

/-- An operator as it stands in trees. -/
def op : Joint → BinaryOp
  | .pipe => .pipe
  | .or => .or
  | .and => .and
  | .compare c => .compare c

/-- The place of an operator in the order from the loosest to the tightest: pipes, `||`, `&&` and
comparisons. -/
def rank : Joint → Nat
  | .pipe => 0
  | .or => 1
  | .and => 2
  | .compare _ => 3

/-- How tightly the parser lets an operator bind. -/
def power (j : Joint) : Nat :=
  Lexeme.power (.symbol j.symbol)

/-- Whether an operator compares. -/
def compares : Joint → Bool
  | .compare _ => true
  | _ => false

theorem power_pos (j : Joint) : 0 < j.power := by
  cases j with
  | compare c => cases c <;> decide
  | _ => decide

theorem power_compare (c : Comparator) : (Joint.compare c).power = 5 := by
  cases c <;> rfl

theorem power_le (j : Joint) : j.power ≤ 5 := by
  cases j with
  | compare c => exact Nat.le_of_eq (power_compare c)
  | _ => decide

/-- Comparisons bind more tightly than all other operators. -/
theorem power_le_three {j : Joint} : j.power ≤ 3 ↔ j.compares = false := by
  cases j with
  | compare c => simp [power_compare, compares]
  | _ => decide

/-- The parser has the operators in their order. -/
theorem power_lt_power {j k : Joint} : j.power < k.power ↔ j.rank < k.rank := by
  cases j <;> cases k <;> simp only [power_compare, rank] <;> decide

theorem power_le_power {j k : Joint} : j.power ≤ k.power ↔ j.rank ≤ k.rank := by
  rw [← Nat.not_lt, power_lt_power, Nat.not_lt]

theorem rank_le_two {j : Joint} : j.rank ≤ 2 ↔ j.compares = false := by
  cases j with
  | compare c => simp [rank, compares]
  | _ => decide

theorem exists_compare {j : Joint} (h : j.compares = true) : ∃ c, j = .compare c := by
  cases j with
  | compare c => exact ⟨c, rfl⟩
  | _ => cases h

end Joint

/-! ### Operands -/

/-- The operands: names, the current value, literals, raw strings and expressions in parentheses,
each of them negated any number of times. -/
inductive Term where
  | name (key : Key)
  | current
  | literal (value : Json)
  | rawString (text : Text)
  | group (lexemes : List Lexeme) (tree : Expr)
  | not (t : Term)

namespace Term

/-- An operand as it is spelled. -/
def lexemes : Term → List Lexeme
  | .name key => [key.lexeme]
  | .current => [.symbol .current]
  | .literal value => [.literal value]
  | .rawString text => [.rawString text]
  | .group lexemes _ => .symbol .leftParen :: (lexemes ++ [.symbol .rightParen])
  | .not t => .symbol .not :: t.lexemes

/-- The tree of an operand. -/
def tree : Term → Expr
  | .name key => .atom (.field key.name) 0
  | .current => .atom .current 0
  | .literal value => .atom (.literal value) 0
  | .rawString text => .atom (.literal (.str text)) 0
  | .group _ tree => tree
  | .not t => .unary .not t.tree 0

/-- What stands in parentheses is an expression with the tree it is given, and all of it is nested
within a number of levels. -/
def Fits : Term → (nesting : Nat) → Prop
  | .group lexemes tree, nesting => Expr.ofLexemes? nesting lexemes = some tree
  | .not t, nesting + 1 => t.Fits nesting
  | .not _, 0 => False
  | _, _ => True

end Term

theorem Key.operand {S : Reading} (key : Key) {ts : List Lexeme}
    (h : startsWith .leftParen ts = false) :
    Operand S (key.lexeme :: ts) (.atom (.field key.name) 0) ts := by
  unfold Key.lexeme
  split
  · exact .quotedIdentifier h
  · exact .identifier

/-- An operand is read as its tree where an infix operator or the end of an expression follows. -/
theorem Term.Fits.operand {k : Nat} {t : Term} {ts : List Lexeme} (h : t.Fits k)
    (hts : headPower ts ≤ 5) : Operand (Reads k) (t.lexemes ++ ts) t.tree ts := by
  induction t generalizing k with
  | name key =>
    refine key.operand ?_
    rw [← Bool.not_eq_true, startsWith_iff]
    rintro ⟨ts, rfl⟩
    exact absurd hts (by simp [headPower, Lexeme.power])
  | current => exact .current
  | literal => exact .literal
  | rawString => exact .rawString
  | group ls e =>
    have hr := reads_append (ofLexemes?_eq_some.mp h)
      (v := .symbol .rightParen :: ts) rfl
    rw [Term.lexemes, List.cons_append, List.append_assoc]
    exact .group hr
  | not t ih =>
    cases k with
    | zero => exact h.elim
    | succ k =>
      refine .not ⟨t.tree, ts, ih h, .stop (Nat.le_trans hts ?_)⟩
      decide

/-! ### Sequences -/

/-- The operators of a sequence with their operands, as they are spelled. -/
def jointLexemes : List (Joint × Term) → List Lexeme
  | [] => []
  | (j, t) :: rest => .symbol j.symbol :: (t.lexemes ++ jointLexemes rest)

/-- A sequence as it is spelled. -/
def sequence (first : Term) (rest : List (Joint × Term)) : List Lexeme :=
  first.lexemes ++ jointLexemes rest

theorem jointLexemes_append (a b : List (Joint × Term)) :
    jointLexemes (a ++ b) = jointLexemes a ++ jointLexemes b := by
  induction a with
  | nil => rfl
  | cons x a ih => simp [jointLexemes, ih]

/-- The tree of a sequence: that of its only operand or of its only comparison, or else it is
split at the last of the loosest operators. -/
inductive Reference : Term → List (Joint × Term) → Expr → Prop
  | operand (first : Term) : Reference first [] first.tree
  | compare (first : Term) (c : Comparator) (t : Term) :
      Reference first [(.compare c, t)] (.binary (.compare c) first.tree t.tree 0)
  | split {first before j t after l r} : j.compares = false →
      (∀ x ∈ before, j.rank ≤ x.1.rank) → (∀ x ∈ after, j.rank < x.1.rank) →
      Reference first before l → Reference t after r →
      Reference first (before ++ (j, t) :: after) (.binary j.op l r 0)

/-- Between any two comparisons stands an operator that does not compare. -/
def Separated (rest : List (Joint × Term)) : Prop :=
  ∀ before c t mid c' t' after,
    rest = before ++ (.compare c, t) :: (mid ++ (.compare c', t') :: after) →
    ∃ x ∈ mid, x.1.compares = false

theorem Separated.left {a b : List (Joint × Term)} (h : Separated (a ++ b)) : Separated a := by
  rintro before c t mid c' t' after rfl
  exact h before c t mid c' t' (after ++ b) (by simp)

theorem Separated.right {a b : List (Joint × Term)} (h : Separated (a ++ b)) : Separated b := by
  rintro before c t mid c' t' after rfl
  exact h (a ++ before) c t mid c' t' after (by simp)

/-- The last of the loosest operators, unless all of them compare. -/
theorem exists_loosest (rest : List (Joint × Term)) :
    (∀ x ∈ rest, x.1.compares = true) ∨
      ∃ before j t after, rest = before ++ (j, t) :: after ∧ j.compares = false ∧
        (∀ x ∈ before, j.rank ≤ x.1.rank) ∧ ∀ x ∈ after, j.rank < x.1.rank := by
  induction rest with
  | nil => exact .inl nofun
  | cons y rest ih =>
    obtain h | ⟨before, j, t, after, rfl, hj, hb, ha⟩ := ih
    · cases hy : y.1.compares with
      | true => exact .inl (List.forall_mem_cons.mpr ⟨hy, h⟩)
      | false =>
        refine .inr ⟨[], y.1, y.2, rest, rfl, hy, nofun, fun x hx => ?_⟩
        obtain ⟨c, hc⟩ := Joint.exists_compare (h x hx)
        rw [hc]
        exact Nat.lt_succ_of_le (Joint.rank_le_two.mpr hy)
    · right
      rcases Nat.lt_or_ge y.1.rank j.rank with hy | hy
      · -- The first operator is looser than all others.
        refine ⟨[], y.1, y.2, _, rfl, ?_, nofun, fun x hx => ?_⟩
        · have := Joint.rank_le_two.mpr hj
          exact Joint.rank_le_two.mp (by omega)
        · rcases List.mem_append.mp hx with hx | hx
          · exact Nat.lt_of_lt_of_le hy (hb x hx)
          · rcases List.mem_cons.mp hx with rfl | hx
            · exact hy
            · exact Nat.lt_trans hy (ha x hx)
      · exact ⟨y :: before, j, t, after, rfl, hj, List.forall_mem_cons.mpr ⟨hy, hb⟩, ha⟩

/-- A sequence whose comparisons are separated has a tree. -/
theorem exists_reference (first : Term) {rest : List (Joint × Term)} (h : Separated rest) :
    ∃ b, Reference first rest b := by
  -- The induction is on the number of operators; both sides of a split have fewer.
  generalize hn : rest.length = n
  induction n using Nat.strongRecOn generalizing first rest with
  | ind n ih =>
    subst hn
    obtain hc | ⟨before, j, t, after, rfl, hj, hb, ha⟩ := exists_loosest rest
    · match rest with
      | [] => exact ⟨_, .operand first⟩
      | [(.compare c, t)] => exact ⟨_, .compare first c t⟩
      | (.compare c, t) :: (.compare c', t') :: after =>
        obtain ⟨x, hx, -⟩ := h [] c t [] c' t' after rfl
        cases hx
      | (.pipe, _) :: _ | (.or, _) :: _ | (.and, _) :: _
      | _ :: (.pipe, _) :: _ | _ :: (.or, _) :: _ | _ :: (.and, _) :: _ =>
        simp [Joint.compares] at hc
    · rw [List.append_cons] at h
      have hlen : (before ++ (j, t) :: after).length = before.length + after.length + 1 := by
        simp [Nat.add_assoc]
      obtain ⟨l, hl⟩ := ih before.length (by omega) first h.left.left rfl
      obtain ⟨r, hr⟩ := ih after.length (by omega) t h.right rfl
      exact ⟨_, .split hj hb ha hl hr⟩

/-- Comparisons are separated where no two of them follow one another. -/
theorem separated_cons {y : Joint × Term} {rest : List (Joint × Term)} :
    Separated (y :: rest) ↔
      Separated rest ∧ ∀ x ∈ rest.head?, y.1.compares = true → x.1.compares = false := by
  constructor
  · intro h
    refine ⟨Separated.right (a := [y]) h, fun x hx hy => ?_⟩
    obtain ⟨rest, rfl⟩ := List.head?_eq_some_iff.mp hx
    rw [← Bool.not_eq_true]
    intro hx
    obtain ⟨j, t⟩ := y
    obtain ⟨j', t'⟩ := x
    obtain ⟨c, rfl⟩ := Joint.exists_compare hy
    obtain ⟨c', rfl⟩ := Joint.exists_compare hx
    obtain ⟨z, hz, -⟩ := h [] c t [] c' t' rest rfl
    cases hz
  · rintro ⟨h, hy⟩ before c t mid c' t' after hrest
    cases before with
    | cons x before => exact h before c t mid c' t' after (List.cons.inj hrest).2
    | nil =>
      obtain ⟨rfl, rfl⟩ := List.cons.inj hrest
      cases mid with
      | nil => exact absurd (hy (.compare c', t') rfl rfl) Bool.noConfusion
      | cons m mid => exact ⟨m, List.mem_cons_self, hy m rfl rfl⟩

theorem separated_nil : Separated [] := by
  intro before c t mid c' t' after h
  simp at h

/-- Where comparisons are not separated, two of them follow one another for the first time. -/
theorem exists_unseparated {rest : List (Joint × Term)} (h : ¬ Separated rest) :
    ∃ before c t c' t' after,
      rest = before ++ (.compare c, t) :: (.compare c', t') :: after ∧
        Separated (before ++ [(.compare c, t)]) := by
  induction rest with
  | nil => exact absurd separated_nil h
  | cons y rest ih =>
    by_cases hy : ∀ x ∈ rest.head?, y.1.compares = true → x.1.compares = false
    · obtain ⟨before, c, t, c', t', after, rfl, hs⟩ := ih fun hr => h (separated_cons.mpr ⟨hr, hy⟩)
      refine ⟨y :: before, c, t, c', t', after, rfl, separated_cons.mpr ⟨hs, ?_⟩⟩
      cases before <;> exact hy
    · simp only [Classical.not_forall, Bool.not_eq_false] at hy
      obtain ⟨x, hx, hy, hxc⟩ := hy
      obtain ⟨rest, rfl⟩ := List.head?_eq_some_iff.mp hx
      obtain ⟨j, t⟩ := y
      obtain ⟨j', t'⟩ := x
      obtain ⟨c, rfl⟩ := Joint.exists_compare hy
      obtain ⟨c', rfl⟩ := Joint.exists_compare hxc
      exact ⟨[], c, t, c', t', rest, rfl, separated_cons.mpr ⟨separated_nil, nofun⟩⟩

end JsonQuery
