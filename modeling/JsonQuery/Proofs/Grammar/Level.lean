/-
Powers and levels of readings.

The power that an expression is read at only decides where its chain of operators ends, and the
number of levels only whether it may be read at all.

* `Grammar.reads_mono` — readings persist as the levels grow;
* `Grammar.reads_headPower` — an expression ends where no operator binds tightly enough;
* `Grammar.reads_lower` — read at a lower power, an expression is the same unless it goes on;
* `Grammar.reads_split` — read at a higher power, it is cut short between two operators.
-/
import JsonQuery.Proofs.Grammar

namespace JsonQuery
namespace Grammar

open JsonQuery.Parser

/-! ### Levels -/

section
variable {S S' : Reading} (hS : ∀ ⦃least ts e rest⦄, S least ts e rest → S' least ts e rest)
include hS

theorem elements_mono {ts rest : List Lexeme} {es : List Expr} (h : Elements S ts es rest) :
    Elements S' ts es rest := by
  induction h with
  | last he => exact .last (hS he)
  | more he _ ih => exact .more (hS he) ih

theorem pairs_mono {ts rest : List Lexeme} {ps : List (Text × Expr)} (h : Pairs S ts ps rest) :
    Pairs S' ts ps rest := by
  induction h with
  | last hk he => exact .last hk (hS he)
  | more hk he _ ih => exact .more hk (hS he) ih

theorem arguments_mono {ts rest : List Lexeme} {es : List Expr} (h : Arguments S ts es rest) :
    Arguments S' ts es rest := by
  induction h with
  | none => exact .none
  | last he => exact .last (hS he)
  | more he hm _ ih => exact .more (hS he) hm ih

theorem afterDot_mono {least : Nat} {ts rest : List Lexeme} {e : Expr}
    (h : AfterDot S least ts e rest) : AfterDot S' least ts e rest := by
  cases h with
  | expr ht he => exact .expr ht (hS he)
  | list h => exact .list (elements_mono hS h)
  | hash h => exact .hash (pairs_mono hS h)

theorem projected_mono {least : Nat} {ts rest : List Lexeme} {e : Expr}
    (h : Projected S least ts e rest) : Projected S' least ts e rest := by
  cases h with
  | stop hp => exact .stop hp
  | bracket he => exact .bracket (hS he)
  | filter he => exact .filter (hS he)
  | dot h => exact .dot (afterDot_mono hS h)

theorem bracketed_mono {left : Expr} {ts rest : List Lexeme} {e : Expr}
    (h : Bracketed S left ts e rest) : Bracketed S' left ts e rest := by
  cases h with
  | index h => exact .index h
  | slice h hp => exact .slice h (projected_mono hS hp)

theorem filtered_mono {left : Expr} {ts rest : List Lexeme} {e : Expr}
    (h : Filtered S left ts e rest) : Filtered S' left ts e rest := by
  cases h with
  | intro he hp => exact .intro (hS he) (projected_mono hS hp)

theorem operand_mono {ts rest : List Lexeme} {e : Expr} (h : Operand S ts e rest) :
    Operand S' ts e rest := by
  cases h with
  | identifier => exact .identifier
  | quotedIdentifier h => exact .quotedIdentifier h
  | rawString => exact .rawString
  | literal => exact .literal
  | current => exact .current
  | values hp => exact .values (projected_mono hS hp)
  | filter h => exact .filter (filtered_mono hS h)
  | flatten hp => exact .flatten (projected_mono hS hp)
  | not he => exact .not (hS he)
  | group he => exact .group (hS he)
  | hash h => exact .hash (pairs_mono hS h)
  | reference he => exact .reference (hS he)
  | bracket ho h => exact .bracket ho (bracketed_mono hS h)
  | items hp => exact .items (projected_mono hS hp)
  | list ho hi h => exact .list ho hi (elements_mono hS h)

theorem extension_mono {left : Expr} {ts rest : List Lexeme} {e : Expr}
    (h : Extension S left ts e rest) : Extension S' left ts e rest := by
  cases h with
  | values hp => exact .values (projected_mono hS hp)
  | step hs h => exact .step hs (afterDot_mono hS h)
  | bracket ho h => exact .bracket ho (bracketed_mono hS h)
  | items hp => exact .items (projected_mono hS hp)
  | filter h => exact .filter (filtered_mono hS h)
  | flatten hp => exact .flatten (projected_mono hS hp)
  | infixed ho he => exact .infixed ho (hS he)
  | compare hc he hr => exact .compare hc (hS he) hr
  | call h => exact .call (arguments_mono hS h)

theorem operators_mono {least : Nat} {left : Expr} {ts rest : List Lexeme} {e : Expr}
    (h : Operators S least left ts e rest) : Operators S' least left ts e rest := by
  induction h with
  | stop hp => exact .stop hp
  | more hp he _ ih => exact .more hp (extension_mono hS he) ih

end

theorem reads_succ {n least : Nat} {ts rest : List Lexeme} {e : Expr}
    (h : Reads n least ts e rest) : Reads (n + 1) least ts e rest := by
  -- One more level is needed for the expressions inside, which is the induction hypothesis.
  induction n generalizing least ts e rest with
  | zero => exact h.elim
  | succ n ih =>
    obtain ⟨left, mid, ho, hl⟩ := h
    exact ⟨left, mid, operand_mono (fun _ _ _ _ => ih) ho, operators_mono (fun _ _ _ _ => ih) hl⟩

/-- Readings persist as the levels grow. -/
theorem reads_mono {n m least : Nat} {ts rest : List Lexeme} {e : Expr} (hnm : n ≤ m)
    (h : Reads n least ts e rest) : Reads m least ts e rest := by
  induction m with
  | zero => rwa [Nat.le_zero.mp hnm] at h
  | succ m ih =>
    rcases Nat.lt_or_ge m n with hm | hm
    · rwa [Nat.le_antisymm hnm hm] at h
    · exact reads_succ (ih hm)

/-! ### Powers -/

theorem operators_headPower {S : Reading} {least : Nat} {left : Expr} {ts rest : List Lexeme}
    {e : Expr} (h : Operators S least left ts e rest) : headPower rest ≤ least := by
  induction h with
  | stop hp => exact hp
  | more _ _ _ ih => exact ih

/-- Where nothing follows, nothing is extended. -/
theorem operators_nil {S : Reading} {least : Nat} {left e : Expr} {rest : List Lexeme}
    (h : Operators S least left [] e rest) : e = left ∧ rest = [] := by
  cases h with
  | stop => exact ⟨rfl, rfl⟩
  | more hp => exact absurd hp (Nat.not_lt_zero _)

theorem operators_lower {S : Reading} {least least' : Nat} {left : Expr} {ts rest : List Lexeme}
    {e : Expr} (hl : least ≤ least') (hr : headPower rest ≤ least)
    (h : Operators S least' left ts e rest) : Operators S least left ts e rest := by
  induction h with
  | stop _ => exact .stop hr
  | more hp he _ ih => exact .more (Nat.lt_of_le_of_lt hl hp) he (ih hr)

theorem operators_split {S : Reading} {least least' : Nat} {left : Expr} {ts rest : List Lexeme}
    {e : Expr} (hl : least ≤ least') (h : Operators S least left ts e rest) :
    ∃ e' mid, Operators S least' left ts e' mid ∧ Operators S least e' mid e rest := by
  induction h with
  | stop hp => exact ⟨_, _, .stop (Nat.le_trans hp hl), .stop hp⟩
  | @more left ts e mid r rest hp he hm ih =>
    -- The first operator that binds no more tightly than `least'` is where the two part.
    rcases Nat.lt_or_ge least' (headPower ts) with ht | ht
    · obtain ⟨e', mid', h1, h2⟩ := ih
      exact ⟨e', mid', .more ht he h1, h2⟩
    · exact ⟨left, ts, .stop ht, .more hp he hm⟩

/-- An expression ends where no operator binds tightly enough. -/
theorem reads_headPower {n least : Nat} {ts rest : List Lexeme} {e : Expr}
    (h : Reads n least ts e rest) : headPower rest ≤ least := by
  cases n with
  | zero => exact h.elim
  | succ n =>
    obtain ⟨_, _, _, hl⟩ := h
    exact operators_headPower hl

/-- Read at a lower power, an expression is the same unless it goes on. -/
theorem reads_lower {n least least' : Nat} {ts rest : List Lexeme} {e : Expr}
    (hl : least ≤ least') (hr : headPower rest ≤ least) (h : Reads n least' ts e rest) :
    Reads n least ts e rest := by
  cases n with
  | zero => exact h.elim
  | succ n =>
    obtain ⟨left, mid, ho, h⟩ := h
    exact ⟨left, mid, ho, operators_lower hl hr h⟩

/-- Read at a higher power, an expression is cut short between two operators. -/
theorem reads_split {n least least' : Nat} {ts rest : List Lexeme} {e : Expr}
    (hl : least ≤ least') (h : Reads (n + 1) least ts e rest) :
    ∃ e' mid, Reads (n + 1) least' ts e' mid ∧ Operators (Reads n) least e' mid e rest := by
  obtain ⟨left, mid, ho, h⟩ := h
  obtain ⟨e', mid', h1, h2⟩ := operators_split hl h
  exact ⟨e', mid', ⟨left, mid, ho, h1⟩, h2⟩

/-! ### The current value left out -/

theorem indexed_ne (left : Expr) {a : Atom} (ha : a ≠ .identity) :
    isIdentity (indexed left a) = false := by
  unfold indexed
  split
  · cases a <;> first | rfl | exact absurd rfl ha
  · rfl

theorem extension_ne {S : Reading} {left : Expr} {ts rest : List Lexeme} {e : Expr}
    (h : Extension S left ts e rest) : isIdentity e = false := by
  cases h with
  | bracket _ h =>
    cases h with
    | index =>
      refine indexed_ne left ?_
      intro h
      cases h
    | slice => rfl
  | filter h => cases h; rfl
  | values | step | items | flatten | infixed | compare | call => rfl

theorem operators_ne {S : Reading} {least : Nat} {left : Expr} {ts rest : List Lexeme} {e : Expr}
    (h : Operators S least left ts e rest) (hl : isIdentity left = false) :
    isIdentity e = false := by
  induction h with
  | stop => exact hl
  | more _ he _ ih => exact ih (extension_ne he)

theorem operand_ne {S : Reading}
    (hS : ∀ ⦃least ts e rest⦄, S least ts e rest → isIdentity e = false)
    {ts rest : List Lexeme} {e : Expr} (h : Operand S ts e rest) : isIdentity e = false := by
  cases h with
  | filter h => cases h; rfl
  | group he => exact hS he
  | bracket _ h =>
    cases h with
    | index =>
      refine indexed_ne implicit ?_
      intro h
      cases h
    | slice => rfl
  | identifier | quotedIdentifier | rawString | literal | current | values | flatten | not | hash
  | reference | items | list => rfl

/-- No expression stands for the current value without saying so. -/
theorem reads_ne {n least : Nat} {ts rest : List Lexeme} {e : Expr}
    (h : Reads n least ts e rest) : isIdentity e = false := by
  induction n generalizing least ts e rest with
  | zero => exact h.elim
  | succ n ih =>
    obtain ⟨_, _, ho, hl⟩ := h
    exact operators_ne hl (operand_ne (fun _ _ _ _ => ih) ho)

end Grammar
end JsonQuery
