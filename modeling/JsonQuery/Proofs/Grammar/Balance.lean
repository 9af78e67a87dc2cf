/-
Brackets are balanced.

Every production closes the brackets that it opens, and only those; a production that starts
after its opening bracket closes one more.  So before and after an expression the same number of
brackets is open.

* `Lexeme.delta`, `Grammar.net` — the brackets that lexemes open, less those that they close;
* `Grammar.reads_net` — an expression leaves as many brackets open as it found.
-/
import JsonQuery.Proofs.Grammar
import Mathlib.Algebra.Ring.Int.Defs

namespace JsonQuery

/-- One for an opening bracket of any kind, minus one for a closing one. -/
@[simp]
def Lexeme.delta : Lexeme → Int
  | .symbol .leftParen | .symbol .leftBracket | .symbol .leftBrace | .symbol .filter => 1
  | .symbol .rightParen | .symbol .rightBracket | .symbol .rightBrace => -1
  | _ => 0

namespace Grammar

open JsonQuery.Parser

/-- The brackets that some lexemes open, less those that they close. -/
def net (ls : List Lexeme) : Int :=
  (ls.map Lexeme.delta).sum

@[simp] theorem net_cons (t : Lexeme) (ls : List Lexeme) : net (t :: ls) = t.delta + net ls :=
  List.sum_cons

@[simp] theorem net_append (u v : List Lexeme) : net (u ++ v) = net u + net v := by
  rw [net, List.map_append, List.sum_append]
  rfl

theorem delta_key {t : Lexeme} {key : Text} (h : key? t = some key) : t.delta = 0 := by
  cases t <;> cases h <;> rfl

theorem delta_infixOp {s : Symbol} {op : BinaryOp} (h : infixOp? s = some op) :
    (Lexeme.symbol s).delta = 0 := by
  cases s <;> first | rfl | cases h

theorem delta_comparator {s : Symbol} {c : Comparator} (h : comparator? s = some c) :
    (Lexeme.symbol s).delta = 0 := by
  cases s <;> first | rfl | cases h

/-! ### Productions -/

theorem sliceParts_net {i : Nat} {s r : Slice} {ts rest : List Lexeme}
    (h : SliceParts i s ts r rest) : net ts = net rest - 1 := by
  induction h with
  | close =>
    simp
    omega
  | colon _ _ ih => simpa using ih
  | number _ _ ih => simpa using ih

theorem bracket_net {ts rest : List Lexeme} {a : Atom} (h : Bracket ts a rest) :
    net ts = net rest - 1 := by
  cases h with
  | index =>
    simp
    omega
  | slice _ hp => exact sliceParts_net hp

section
variable {S : Reading}
  (hS : ∀ ⦃least ts e rest⦄, S least ts e rest → net ts = net rest)
include hS

theorem elements_net {ts rest : List Lexeme} {es : List Expr} (h : Elements S ts es rest) :
    net ts = net rest - 1 := by
  induction h with
  | last he =>
    have := hS he
    simp at this
    omega
  | more he _ ih =>
    have := hS he
    simp at this
    omega

theorem pairs_net {ts rest : List Lexeme} {ps : List (Text × Expr)} (h : Pairs S ts ps rest) :
    net ts = net rest - 1 := by
  induction h with
  | last hk he =>
    have := hS he
    rw [net_cons, delta_key hk]
    simp at this ⊢
    omega
  | more hk he _ ih =>
    have := hS he
    rw [net_cons, delta_key hk]
    simp at this ⊢
    omega

theorem arguments_net {ts rest : List Lexeme} {es : List Expr} (h : Arguments S ts es rest) :
    net ts = net rest - 1 := by
  induction h with
  | none =>
    simp
    omega
  | last he =>
    have := hS he
    simp at this
    omega
  | more he _ _ ih =>
    have := hS he
    simp at this
    omega

theorem afterDot_net {least : Nat} {ts rest : List Lexeme} {e : Expr}
    (h : AfterDot S least ts e rest) : net ts = net rest := by
  cases h with
  | expr _ he => exact hS he
  | list h =>
    have := elements_net hS h
    simp
    omega
  | hash h =>
    have := pairs_net hS h
    simp
    omega

theorem projected_net {least : Nat} {ts rest : List Lexeme} {e : Expr}
    (h : Projected S least ts e rest) : net ts = net rest := by
  cases h with
  | stop => rfl
  | bracket he | filter he => exact hS he
  | dot h => simpa using afterDot_net hS h

theorem bracketed_net {left : Expr} {ts rest : List Lexeme} {e : Expr}
    (h : Bracketed S left ts e rest) : net ts = net rest - 1 := by
  cases h with
  | index h => exact bracket_net h
  | slice h hp => rw [bracket_net h, projected_net hS hp]

theorem filtered_net {left : Expr} {ts rest : List Lexeme} {e : Expr}
    (h : Filtered S left ts e rest) : net ts = net rest - 1 := by
  cases h with
  | intro hp hr =>
    have := projected_net hS hr
    have := hS hp
    simp at this
    omega

theorem operand_net {ts rest : List Lexeme} {e : Expr} (h : Operand S ts e rest) :
    net ts = net rest := by
  cases h with
  | identifier | quotedIdentifier | rawString | literal | current => simp
  | values hp | flatten hp => simpa using projected_net hS hp
  | items hp =>
    have := projected_net hS hp
    simp
    omega
  | filter h =>
    have := filtered_net hS h
    simp
    omega
  | not he | reference he => simpa using hS he
  | group he =>
    have := hS he
    simp at this ⊢
    omega
  | hash h =>
    have := pairs_net hS h
    simp
    omega
  | bracket _ h =>
    have := bracketed_net hS h
    simp
    omega
  | list _ _ h =>
    have := elements_net hS h
    simp
    omega

theorem extension_net {left : Expr} {ts rest : List Lexeme} {e : Expr}
    (h : Extension S left ts e rest) : net ts = net rest := by
  cases h with
  | values hp | flatten hp => simpa using projected_net hS hp
  | items hp =>
    have := projected_net hS hp
    simp
    omega
  | step _ h => simpa using afterDot_net hS h
  | bracket _ h =>
    have := bracketed_net hS h
    simp
    omega
  | filter h =>
    have := filtered_net hS h
    simp
    omega
  | infixed ho he =>
    rw [net_cons, delta_infixOp ho, Int.zero_add]
    exact hS he
  | compare hc he _ =>
    rw [net_cons, delta_comparator hc, Int.zero_add]
    exact hS he
  | call h =>
    have := arguments_net hS h
    simp
    omega

theorem operators_net {least : Nat} {left : Expr} {ts rest : List Lexeme} {e : Expr}
    (h : Operators S least left ts e rest) : net ts = net rest := by
  induction h with
  | stop => rfl
  | more _ he _ ih => exact (extension_net hS he).trans ih

end

/-- An expression leaves as many brackets open as it found. -/
theorem reads_net {n least : Nat} {ts rest : List Lexeme} {e : Expr}
    (h : Reads n least ts e rest) : net ts = net rest := by
  induction n generalizing least ts e rest with
  | zero => exact h.elim
  | succ n ih =>
    obtain ⟨left, mid, ho, hl⟩ := h
    have hS : ∀ ⦃least ts e rest⦄, Reads n least ts e rest → net ts = net rest :=
      fun _ _ _ _ => ih
    exact (operand_net hS ho).trans (operators_net hS hl)

end Grammar
end JsonQuery
