/-
Expressions before a pipe.

A pipe binds less tightly than any other operator, so it ends whatever stands open at the end of
the lexemes before it: projections, comparisons, negations.  Only a reference would take the pipe
into its own expression, unless a bracket closes behind it.

* `Grammar.Covered` — every reference stands inside brackets;
* `Grammar.Edged` — readings up to the end that end there as well before a pipe;
* `Grammar.reads_edge` — an expression that is covered goes on with a pipe after its last
  operator;
* `Grammar.operators_pipes` — what pipes follow does not matter to them.
-/
import JsonQuery.Proofs.Grammar.Balance
import JsonQuery.Proofs.Grammar.Level
import JsonQuery.Proofs.Grammar.Local

namespace JsonQuery
namespace Grammar

open JsonQuery.Parser

/-- Every reference stands inside brackets: before its `&` more brackets open than close. -/
def Covered (ls : List Lexeme) : Prop :=
  ∀ v w, ls = v ++ .symbol .ampersand :: w → 0 < net v

/-- What is left of covered lexemes is covered, if as many brackets are open there as before. -/
theorem Covered.suffix {ts mid : List Lexeme} (hc : Covered ts) (hs : mid <:+ ts)
    (hn : net ts = net mid) : Covered mid := by
  obtain ⟨u, rfl⟩ := hs
  rintro v w rfl
  have := hc (u ++ v) w (List.append_assoc u v _).symm
  rw [net_append] at hn this
  omega

theorem Covered.tail {t : Lexeme} {ts : List Lexeme} (hc : Covered (t :: ts))
    (ht : t.delta = 0) : Covered ts := by
  refine hc.suffix (List.suffix_cons t ts) ?_
  rw [net_cons, ht, Int.zero_add]

theorem Covered.items {ts : List Lexeme}
    (hc : Covered (.symbol .leftBracket :: .symbol .star :: .symbol .rightBracket :: ts)) :
    Covered ts := by
  refine hc.suffix ⟨[_, _, _], rfl⟩ ?_
  simp only [net_cons, Lexeme.delta]
  omega

/-- A reference that stands first is not covered. -/
theorem not_covered (ts : List Lexeme) : ¬ Covered (.symbol .ampersand :: ts) :=
  fun hc => Int.lt_irrefl 0 (hc [] ts rfl)

/-- What binds less tightly than a symbol does not start with it. -/
theorem startsWith_of_lt {s : Symbol} {r : List Lexeme}
    (h : headPower r < Lexeme.power (.symbol s)) : startsWith s r = false := by
  rw [← Bool.not_eq_true, startsWith_iff]
  rintro ⟨r', rfl⟩
  exact Nat.lt_irrefl _ h

theorem power_infixOp {s : Symbol} {op : BinaryOp} (h : infixOp? s = some op) :
    1 ≤ Lexeme.power (.symbol s) := by
  cases s <;> first | decide | cases h

theorem power_comparator {s : Symbol} {c : Comparator} (h : comparator? s = some c) :
    Lexeme.power (.symbol s) = 5 := by
  cases s <;> first | rfl | cases h

/-- What binds less tightly than a comparison does not start with one. -/
theorem compares_of_lt {r : List Lexeme} (h : headPower r < 5) : compares r = false := by
  rw [← Bool.not_eq_true]
  intro hc
  match r with
  | .symbol s :: r =>
    obtain ⟨c, hs⟩ := Option.isSome_iff_exists.mp hc
    exact absurd (power_comparator hs) (Nat.ne_of_lt h)

/-- A reading of covered lexemes up to their end ends there as well before what binds no more
tightly than a pipe. -/
def Edged (S : Reading) : Prop :=
  ∀ ⦃least ts e r⦄, 1 ≤ least → headPower r ≤ 1 → Covered ts → S least ts e [] →
    S least (ts ++ r) e r

section
variable {S : Reading} (hL : Local S)
  (hN : ∀ ⦃least ts e rest⦄, S least ts e rest → net ts = net rest) (hE : Edged S)
  {r : List Lexeme} (hr : headPower r ≤ 1)
include hL hE hr

theorem afterDot_edge {least : Nat} {ts : List Lexeme} {e : Expr} (hl : 1 ≤ least)
    (hc : Covered ts) (h : AfterDot S least ts e []) : AfterDot S least (ts ++ r) e r := by
  cases h with
  | expr ht he => exact .expr ht (hE hl hr hc he)
  | list h =>
    obtain ⟨t, t', u, rfl, hu⟩ := elements_append hL h
    exact .list (by simpa using hu r)
  | hash h =>
    obtain ⟨t, u, rfl, hu⟩ := pairs_append hL h
    exact .hash (by simpa using hu r)

theorem projected_edge {least : Nat} {ts : List Lexeme} {e : Expr} (hl : 1 ≤ least)
    (hc : Covered ts) (h : Projected S least ts e []) : Projected S least (ts ++ r) e r := by
  cases h with
  | stop => exact .stop (Nat.lt_of_le_of_lt hr (by decide))
  | bracket he => exact .bracket (hE hl hr hc he)
  | filter he => exact .filter (hE hl hr hc he)
  | dot h => exact .dot (afterDot_edge hL hE hr hl (hc.tail rfl) h)

theorem bracketed_edge {left : Expr} {ts : List Lexeme} {e : Expr}
    (hc : Covered (.symbol .leftBracket :: ts)) (h : Bracketed S left ts e []) :
    Bracketed S left (ts ++ r) e r := by
  cases h with
  | index h =>
    obtain ⟨t, u, rfl, hu⟩ := bracket_append h
    exact .index (by simpa using hu r)
  | @slice _ mid _ _ h hp =>
    -- The bracket is closed before the right side, which is therefore covered as well.
    have hn : net (.symbol .leftBracket :: ts) = net mid := by
      rw [net_cons, bracket_net h, Lexeme.delta]
      omega
    obtain ⟨t, u, rfl, hu⟩ := bracket_append h
    have hmid : Covered mid := hc.suffix ⟨.symbol .leftBracket :: t :: u, rfl⟩ hn
    rw [List.append_assoc]
    exact .slice (hu (mid ++ r)) (projected_edge hL hE hr (by decide) hmid hp)

include hN

theorem filtered_edge {left : Expr} {ts : List Lexeme} {e : Expr}
    (hc : Covered (.symbol .filter :: ts)) (h : Filtered S left ts e []) :
    Filtered S left (ts ++ r) e r := by
  cases h with
  | @intro _ mid _ _ he hp =>
    have hn : net (.symbol .filter :: ts) = net mid := by
      rw [net_cons, hN he, net_cons, Lexeme.delta, Lexeme.delta]
      omega
    obtain ⟨t, u, rfl, hu⟩ := hL he
    have hmid : Covered mid := by
      refine hc.suffix ⟨.symbol .filter :: (t :: u ++ [.symbol .rightBracket]), ?_⟩ hn
      simp
    have hread := hu (.symbol .rightBracket :: (mid ++ r)) (givesWay_cons _ _ _)
    rw [List.append_assoc]
    exact .intro hread (projected_edge hL hE hr (by decide) hmid hp)

theorem operand_edge {ts : List Lexeme} {e : Expr} (hc : Covered ts) (h : Operand S ts e []) :
    Operand S (ts ++ r) e r := by
  cases h with
  | identifier => exact .identifier
  | quotedIdentifier =>
    exact .quotedIdentifier (startsWith_of_lt (Nat.lt_of_le_of_lt hr (by decide)))
  | rawString => exact .rawString
  | literal => exact .literal
  | current => exact .current
  | values hp => exact .values (projected_edge hL hE hr (by decide) (hc.tail rfl) hp)
  | filter h => exact .filter (filtered_edge hL hN hE hr hc h)
  | flatten hp => exact .flatten (projected_edge hL hE hr (by decide) (hc.tail rfl) hp)
  | not he => exact .not (hE (by decide) hr (hc.tail rfl) he)
  | group he =>
    -- What a bracket closes does not see the pipe at all.
    obtain ⟨t, u, rfl, hu⟩ := hL he
    have h := hu (.symbol .rightParen :: r) (givesWay_cons _ _ _)
    simpa using Operand.group h
  | hash h =>
    obtain ⟨t, u, rfl, hu⟩ := pairs_append hL h
    exact .hash (by simpa using hu r)
  | reference => exact absurd hc (not_covered _)
  | bracket ho h =>
    have hb := bracketed_edge hL hE hr hc h
    -- Whether an index, `[*]` or a list starts here is told by lexemes that stay where they are.
    obtain ⟨t, u, rfl, -⟩ := bracketed_append hL h
    refine .bracket ?_ hb
    rw [← ho]
    exact opensIndex_congr rfl
  | items hp => exact .items (projected_edge hL hE hr (by decide) hc.items hp)
  | list ho hi h =>
    obtain ⟨t, t', u, rfl, hu⟩ := elements_append hL h
    refine .list ?_ ?_ (by simpa using hu r)
    · rw [← ho]
      exact opensIndex_congr rfl
    · rw [← hi]
      exact opensItems_congr

theorem extension_edge {left : Expr} {ts : List Lexeme} {e : Expr} (hc : Covered ts)
    (h : Extension S left ts e []) : Extension S left (ts ++ r) e r := by
  cases h with
  | values hp =>
    exact .values (projected_edge hL hE hr (by decide) ((hc.tail rfl).tail rfl) hp)
  | step hs h =>
    have ha := afterDot_edge hL hE hr (by decide) (hc.tail rfl) h
    refine .step ?_ ha
    obtain ⟨t, u, rfl, -⟩ := afterDot_append hL h
    exact startsWith_cons _ hs
  | bracket ho h =>
    have hb := bracketed_edge hL hE hr hc h
    obtain ⟨t, u, rfl, -⟩ := bracketed_append hL h
    refine .bracket ?_ hb
    rw [← ho]
    exact opensIndex_congr rfl
  | items hp => exact .items (projected_edge hL hE hr (by decide) hc.items hp)
  | filter h => exact .filter (filtered_edge hL hN hE hr hc h)
  | flatten hp => exact .flatten (projected_edge hL hE hr (by decide) (hc.tail rfl) hp)
  | infixed ho he => exact .infixed ho (hE (power_infixOp ho) hr (hc.tail (delta_infixOp ho)) he)
  | compare hs he _ =>
    have he := hE (by rw [power_comparator hs]; decide) hr (hc.tail (delta_comparator hs)) he
    exact .compare hs he (compares_of_lt (Nat.lt_of_le_of_lt hr (by decide)))
  | call h =>
    obtain ⟨t, u, rfl, hu⟩ := arguments_append hL h
    exact .call (by simpa using hu r)

/-- An extension of covered lexemes stays as it is before what binds no more tightly than a
pipe. -/
theorem extension_before {left : Expr} {ts mid : List Lexeme} {e : Expr} (hc : Covered ts)
    (h : Extension S left ts e mid) : Extension S left (ts ++ r) e (mid ++ r) := by
  cases mid with
  | nil => exact extension_edge hL hN hE hr hc h
  | cons t mid =>
    obtain ⟨t', u, rfl, hu⟩ := extension_append hL h
    rw [List.append_assoc]
    exact hu (t :: mid ++ r) (givesWay_cons _ _ _)

theorem operand_before {ts mid : List Lexeme} {e : Expr} (hc : Covered ts)
    (h : Operand S ts e mid) : Operand S (ts ++ r) e (mid ++ r) := by
  cases mid with
  | nil => exact operand_edge hL hN hE hr hc h
  | cons t mid =>
    obtain ⟨t', u, rfl, hu⟩ := operand_append hL h
    rw [List.append_assoc]
    exact hu (t :: mid ++ r) (givesWay_cons _ _ _)

/-- The operators of an expression may be followed by further ones. -/
theorem operators_before {least : Nat} {left e e' : Expr} {ts rest : List Lexeme}
    (hc : Covered ts) (h : Operators S least left ts e [])
    (hnext : Operators S least e r e' rest) : Operators S least left (ts ++ r) e' rest := by
  generalize hnil : ([] : List Lexeme) = w at h
  induction h with
  | stop =>
    subst hnil
    exact hnext
  | @more left ts e₁ mid e₂ w hp hx hm ih =>
    -- An operator leaves no bracket open, so what comes after it is covered.
    have hx' := extension_before hL hN hE hr hc hx
    have hn := extension_net hN hx
    obtain ⟨t, u, rfl, -⟩ := extension_append hL hx
    have hmid : Covered mid := hc.suffix ⟨t :: u, rfl⟩ hn
    exact .more hp hx' (ih hmid hnext hnil)

end

theorem reads_before {n least : Nat} {ts r rest : List Lexeme} {e e' : Expr}
    (hE : Edged (Reads n)) (hr : headPower r ≤ 1) (hc : Covered ts)
    (h : Reads (n + 1) least ts e []) (hnext : Operators (Reads n) least e r e' rest) :
    Reads (n + 1) least (ts ++ r) e' rest := by
  have hL := local_reads n
  have hN : ∀ ⦃least ts e rest⦄, Reads n least ts e rest → net ts = net rest :=
    fun _ _ _ _ => reads_net
  obtain ⟨left, mid, ho, hm⟩ := h
  have hn := operand_net hN ho
  have ho' := operand_before hL hN hE hr hc ho
  obtain ⟨t, u, rfl, -⟩ := operand_append hL ho
  have hmid : Covered mid := hc.suffix ⟨t :: u, rfl⟩ hn
  exact ⟨left, mid ++ r, ho', operators_before hL hN hE hr hmid hm hnext⟩

/-- Covered expressions of operators that bind more tightly than a pipe end before it. -/
theorem edged_reads (n : Nat) : Edged (Reads n) := by
  induction n with
  | zero => exact fun _ _ _ _ _ _ _ h => h.elim
  | succ n ih =>
    intro least ts e r hl hr hc h
    exact reads_before ih hr hc h (.stop (Nat.le_trans hr hl))

/-! ### Pipes -/

/-- An expression with some others piped after it. -/
def piped (left : Expr) (es : List Expr) : Expr :=
  es.foldl (fun a b => .binary .pipe a b 0) left

/-- What binds no more tightly than a pipe extends an expression only as one. -/
theorem extension_pipe {S : Reading} {left e : Expr} {ts mid : List Lexeme}
    (hp : headPower ts ≤ 1) (h : Extension S left ts e mid) :
    ∃ right ts', ts = .symbol .pipe :: ts' ∧ e = .binary .pipe left right 0 ∧
      S 1 ts' right mid := by
  cases h with
  | @infixed _ s op ts' right _ ho he =>
    cases s <;> cases ho
    · exact ⟨right, ts', rfl, rfl, he⟩
    · simp [headPower, Lexeme.power] at hp
    · simp [headPower, Lexeme.power] at hp
  | compare hs =>
    have := power_comparator hs
    simp [headPower, this] at hp
  | _ => simp [headPower, Lexeme.power] at hp

/-- What pipes follow does not matter to them. -/
theorem operators_pipes {n : Nat} {left e : Expr} {ts : List Lexeme} (hp : headPower ts ≤ 1)
    (h : Operators (Reads n) 0 left ts e []) :
    ∃ es, e = piped left es ∧ ∀ left', Operators (Reads n) 0 left' ts (piped left' es) [] := by
  generalize hnil : ([] : List Lexeme) = w at h
  induction h with
  | stop hs => exact ⟨[], rfl, fun _ => .stop hs⟩
  | @more left ts e₁ mid e₂ w hpos hx hm ih =>
    -- Its right side ends before what binds no more tightly than a pipe, which is another pipe.
    obtain ⟨right, ts', rfl, rfl, hr⟩ := extension_pipe hp hx
    obtain ⟨es, rfl, hes⟩ := ih (reads_headPower hr) hnil
    exact ⟨right :: es, rfl, fun left' => .more hpos (.infixed rfl hr) (hes _)⟩

/-- A covered expression, a pipe and another expression are read as the first one with the parts
of the second piped after it. -/
theorem reads_piped {n : Nat} {u w : List Lexeme} {a b : Expr} (ha : Reads (n + 1) 0 u a [])
    (hc : Covered u) (hb : Reads n 0 w b []) :
    ∃ p es, b = piped p es ∧
      Reads (n + 1) 0 (u ++ .symbol .pipe :: w) (piped a (p :: es)) [] := by
  cases n with
  | zero => exact hb.elim
  | succ n =>
    obtain ⟨p, mid, hp, hm⟩ := reads_split (Nat.zero_le 1) hb
    have hm := operators_mono (fun _ _ _ _ => reads_succ) hm
    obtain ⟨es, rfl, hes⟩ := operators_pipes (reads_headPower hp) hm
    refine ⟨p, es, rfl, reads_before (edged_reads _) (Nat.le_refl 1) hc ha ?_⟩
    exact .more Nat.one_pos (.infixed rfl hp) (hes _)

end Grammar
end JsonQuery
