/-
What the grammar reads, the parser gives.

* `Grammar.Complete` — a parser of expressions gives whatever a reading allows;
* `Grammar.complete_expression` — the parser of expressions does so at every level;
* `Grammar.reads_unique` — so the grammar reads one tree at most, and stops at one place.
-/
import JsonQuery.Proofs.Grammar.Level
import JsonQuery.Proofs.Grammar.Sound

namespace JsonQuery
namespace Grammar

open JsonQuery.Parser

theorem lexemes_eq_cons {ts : List Token} {l : Lexeme} {ls : List Lexeme} :
    lexemes ts = l :: ls ↔ ∃ o r, ts = ⟨l, o⟩ :: r ∧ lexemes r = ls := by
  constructor
  · intro h
    match ts with
    | ⟨l', o⟩ :: r =>
      rw [lexemes_cons, List.cons.injEq] at h
      exact ⟨o, r, by rw [← h.1], h.2⟩
  · rintro ⟨o, r, rfl, rfl⟩
    rfl

/-- A step of parsing gives what is seen as `b` and stops before some lexemes, with fewer than `k`
tokens left. -/
def Gives {α β : Type} (view : α → β) (x : Except ParseError (α × List Token)) (b : β)
    (ls : List Lexeme) (k : Nat) : Prop :=
  ∃ a rest, x = .ok (a, rest) ∧ view a = b ∧ lexemes rest = ls ∧ rest.length < k

section
variable {α β γ δ : Type} {view : α → β} {view' : γ → δ}
  {x : Except ParseError (α × List Token)}
  {g : α × List Token → Except ParseError (γ × List Token)} {b : β} {b' : δ}
  {ls ls' : List Lexeme} {k k' : Nat}

theorem Gives.mono (h : Gives view x b ls k) (hk : k ≤ k') : Gives view x b ls k' := by
  obtain ⟨a, rest, hx, hv, hr, hlt⟩ := h
  exact ⟨a, rest, hx, hv, hr, Nat.lt_of_lt_of_le hlt hk⟩

/-- Where a step gives something, the next one goes on with it. -/
theorem Gives.bind (h : Gives view x b ls k)
    (hg : ∀ a rest, view a = b → lexemes rest = ls → rest.length < k →
      Gives view' (g (a, rest)) b' ls' k') : Gives view' (x >>= g) b' ls' k' := by
  obtain ⟨a, rest, rfl, hv, hr, hlt⟩ := h
  exact hg a rest hv hr hlt

end

theorem expect_cons_bind {β : Type} {stop : Nat} {s : Symbol} {context : Text} {o : Nat}
    {ts : List Token} {f : List Token → Except ParseError β} :
    expect stop s context (⟨.symbol s, o⟩ :: ts) >>= f = f ts := by
  rw [expect_eq_ok.mpr ⟨o, rfl⟩]
  rfl

theorem sliceParts_complete (stop : Nat) {i : Nat} {s r : Slice} {ts : List Token}
    {ls : List Lexeme} (h : SliceParts i s (lexemes ts) r ls) :
    Gives id (sliceParts stop i s ts) r ls ts.length := by
  generalize hl : lexemes ts = l at h
  induction h generalizing ts with
  | close =>
    obtain ⟨o, rest, rfl, rfl⟩ := lexemes_eq_cons.mp hl
    exact ⟨_, _, rfl, rfl, rfl, Nat.lt_succ_self _⟩
  | colon hi _ ih =>
    obtain ⟨o, ts, rfl, hl'⟩ := lexemes_eq_cons.mp hl
    rw [sliceParts]
    simp only [if_neg hi]
    exact (ih hl').mono (Nat.le_succ _)
  | number hs _ ih =>
    obtain ⟨o, ts, rfl, hl'⟩ := lexemes_eq_cons.mp hl
    rw [sliceParts]
    simp only [hs, Option.isSome_none, Bool.false_eq_true, if_false]
    exact (ih hl').mono (Nat.le_succ _)

theorem bracket_complete (stop : Nat) {ts : List Token} {a : Atom} {ls : List Lexeme}
    (h : Bracket (lexemes ts) a ls) : Gives id (bracket stop ts) a ls ts.length := by
  generalize hl : lexemes ts = l at h
  cases h with
  | index =>
    obtain ⟨o, ts, rfl, hl'⟩ := lexemes_eq_cons.mp hl
    obtain ⟨o', rest, rfl, rfl⟩ := lexemes_eq_cons.mp hl'
    exact ⟨_, rest, rfl, rfl, rfl, Nat.lt_succ_of_lt (Nat.lt_succ_self _)⟩
  | slice ho h =>
    subst hl
    obtain ⟨_, rest, hx, rfl, hr, hlt⟩ := sliceParts_complete stop h
    refine ⟨_, rest, ?_, rfl, hr, hlt⟩
    unfold bracket
    split
    · next i o ts =>
      have hc : startsWithColon ts = true := by rw [startsWithColon_eq]; exact ho
      rw [if_pos hc, hx]
      rfl
    · rw [hx]
      rfl

theorem bare_eq_field {e : Expr} {name : Text} (h : e.bare = .atom (.field name) 0) :
    ∃ o, e = .atom (.field name) o := by
  cases e <;> simp only [Expr.bare, Expr.atom.injEq, reduceCtorEq] at h
  obtain ⟨rfl, -⟩ := h
  exact ⟨_, rfl⟩

theorem projected_of_lt {stop bound least : Nat} {sub : Nat → Step Expr} {ts : List Token}
    (h : power ts < projectionStop) :
    projected stop bound sub least ts = .ok (.atom .identity (place stop ts), ts) := by
  unfold projected
  exact if_pos h

/-! ### Productions -/

/-- A parser of expressions gives whatever a reading allows, and a reading allows no expression
that starts with a closing symbol. -/
structure Complete (bound : Nat) (sub : Nat → Step Expr) (S : Reading) : Prop where
  gives : ∀ ⦃least ts b ls⦄, ts.length ≤ bound → S least (lexemes ts) b ls →
    Gives Expr.bare (sub least ts) b ls ts.length
  opens : ∀ ⦃least ls b rest s⦄, isCloser s = true → S least ls b rest → startsWith s ls = false

section
variable (stop : Nat) {bound : Nat} {sub : Nat → Step Expr} {S : Reading}
  (hC : Complete bound sub S)
include hC

theorem elements_complete {fuel : Nat} {ts : List Token} {es : List Expr} {ls : List Lexeme}
    (hb : ts.length ≤ bound) (hf : ts.length ≤ fuel) (h : Elements S (lexemes ts) es ls) :
    Gives Expr.bareList (elements stop sub fuel ts) es ls ts.length := by
  -- The induction is on the elements; each takes a token or more, so the bound is not used up.
  generalize hl : lexemes ts = l at h
  induction h generalizing ts fuel with
  | last h =>
    subst hl
    obtain ⟨e, rest', he, rfl, hr, hlt⟩ := hC.gives hb h
    obtain ⟨o, rest, rfl, rfl⟩ := lexemes_eq_cons.mp hr
    cases fuel with
    | zero => omega
    | succ fuel =>
      rw [List.length_cons] at hlt
      refine ⟨[e], rest, ?_, rfl, rfl, by omega⟩
      unfold elements
      split
      · -- The parser looks for an empty list first, but no expression starts with a bracket.
        exact absurd (hC.opens (s := .rightBracket) rfl h) Bool.noConfusion
      · rw [he]
        rfl
  | more h _ ih =>
    subst hl
    obtain ⟨e, rest', he, rfl, hr, hlt⟩ := hC.gives hb h
    obtain ⟨o, mid, rfl, hm⟩ := lexemes_eq_cons.mp hr
    rw [List.length_cons] at hlt
    cases fuel with
    | zero => omega
    | succ fuel =>
      obtain ⟨es, rest, hes, rfl, hr, hlt'⟩ := ih (by omega) (by omega : mid.length ≤ fuel) hm
      refine ⟨e :: es, rest, ?_, rfl, hr, by omega⟩
      unfold elements
      split
      · exact absurd (hC.opens (s := .rightBracket) rfl h) Bool.noConfusion
      · refine bind_eq_ok.mpr ⟨_, he, ?_⟩
        exact bind_eq_ok.mpr ⟨_, hes, rfl⟩

theorem pair_complete {t l : Lexeme} {ts : List Token} {ls ls' : List Lexeme} {key : Text}
    {b : Expr} (hb : ts.length ≤ bound) (hl : lexemes ts = t :: .symbol .colon :: ls)
    (hk : key? t = some key) (h : S 0 ls b (l :: ls')) :
    ∃ e o rest, pair stop sub ts = .ok ((key, e), ⟨l, o⟩ :: rest) ∧ e.bare = b ∧
      lexemes rest = ls' ∧ rest.length + 1 < ts.length := by
  obtain ⟨o, ts, rfl, hl'⟩ := lexemes_eq_cons.mp hl
  obtain ⟨o', ts, rfl, rfl⟩ := lexemes_eq_cons.mp hl'
  simp only [List.length_cons] at hb ⊢
  obtain ⟨e, rest', he, rfl, hr, hlt⟩ := hC.gives (by omega) h
  obtain ⟨o'', rest, rfl, rfl⟩ := lexemes_eq_cons.mp hr
  rw [List.length_cons] at hlt
  refine ⟨e, o'', rest, ?_, rfl, rfl, by omega⟩
  rw [pair]
  simp only [hk]
  refine bind_eq_ok.mpr ⟨ts, rfl, ?_⟩
  exact bind_eq_ok.mpr ⟨_, he, rfl⟩

theorem pairs_complete {fuel : Nat} {ts : List Token} {ps : List (Text × Expr)}
    {ls : List Lexeme} (hb : ts.length ≤ bound) (hf : ts.length ≤ fuel)
    (h : Pairs S (lexemes ts) ps ls) :
    Gives Expr.barePairs (pairs stop sub fuel ts) ps ls ts.length := by
  generalize hl : lexemes ts = l at h
  induction h generalizing ts fuel with
  | last hk h =>
    obtain ⟨e, o, rest, hp, rfl, rfl, hlt⟩ := pair_complete stop hC hb hl hk h
    cases fuel with
    | zero => omega
    | succ fuel =>
      refine ⟨[(_, e)], rest, ?_, rfl, rfl, by omega⟩
      rw [pairs, hp]
      rfl
  | more hk h _ ih =>
    obtain ⟨e, o, mid, hp, rfl, hm, hlt⟩ := pair_complete stop hC hb hl hk h
    cases fuel with
    | zero => omega
    | succ fuel =>
      obtain ⟨ps, rest, hps, rfl, hr, hlt'⟩ := ih (by omega) (by omega : mid.length ≤ fuel) hm
      refine ⟨(_, e) :: ps, rest, ?_, rfl, hr, by omega⟩
      rw [pairs]
      refine bind_eq_ok.mpr ⟨_, hp, ?_⟩
      exact bind_eq_ok.mpr ⟨_, hps, rfl⟩

theorem arguments_complete (name : Text) {fuel : Nat} {ts : List Token} {es : List Expr}
    {ls : List Lexeme} (hb : ts.length ≤ bound) (hf : ts.length ≤ fuel)
    (h : Arguments S (lexemes ts) es ls) :
    Gives Expr.bareList (arguments stop sub name fuel ts) es ls ts.length := by
  generalize hl : lexemes ts = l at h
  induction h generalizing ts fuel with
  | none =>
    obtain ⟨o, rest, rfl, rfl⟩ := lexemes_eq_cons.mp hl
    cases fuel with
    | zero => exact absurd hf (Nat.not_succ_le_zero _)
    | succ fuel => exact ⟨[], rest, rfl, rfl, rfl, Nat.lt_succ_self _⟩
  | last h =>
    subst hl
    obtain ⟨e, rest', he, rfl, hr, hlt⟩ := hC.gives hb h
    obtain ⟨o, rest, rfl, rfl⟩ := lexemes_eq_cons.mp hr
    cases fuel with
    | zero => omega
    | succ fuel =>
      rw [List.length_cons] at hlt
      refine ⟨[e], rest, ?_, rfl, rfl, by omega⟩
      unfold arguments
      split
      · exact absurd (hC.opens (s := .rightParen) rfl h) Bool.noConfusion
      · exact absurd hlt (Nat.not_lt_zero _)
      · rw [he]
        rfl
  | more h hn _ ih =>
    subst hl
    obtain ⟨e, rest', he, rfl, hr, hlt⟩ := hC.gives hb h
    obtain ⟨o, mid, rfl, hm⟩ := lexemes_eq_cons.mp hr
    rw [List.length_cons] at hlt
    cases fuel with
    | zero => omega
    | succ fuel =>
      obtain ⟨es, rest, hes, rfl, hr, hlt'⟩ := ih (by omega) (by omega : mid.length ≤ fuel) hm
      refine ⟨e :: es, rest, ?_, rfl, hr, by omega⟩
      unfold arguments
      split
      · exact absurd (hC.opens (s := .rightParen) rfl h) Bool.noConfusion
      · exact absurd hlt (Nat.not_lt_zero _)
      · rw [he]
        dsimp only [bind, Except.bind]
        split
        · next heq => cases heq
        · next heq =>
          cases heq
          rw [← hm] at hn
          exact absurd hn (by simp [startsWith])
        · next heq =>
          cases heq
          rw [hes]
        · next h1 => exact absurd rfl (h1 _ _)

theorem multiList_complete (o : Nat) {ts : List Token} {es : List Expr} {ls : List Lexeme}
    (hb : ts.length ≤ bound) (h : Elements S (lexemes ts) es ls) :
    Gives Expr.bare (multiList stop bound sub o ts) (.list es 0) ls ts.length := by
  rw [multiList]
  refine (elements_complete stop hC hb hb h).bind ?_
  rintro es rest rfl hr hlt
  exact ⟨.list es o, rest, rfl, by simp only [Expr.bare], hr, hlt⟩

theorem multiHash_complete (o : Nat) {ts : List Token} {ps : List (Text × Expr)}
    {ls : List Lexeme} (hb : ts.length ≤ bound) (h : Pairs S (lexemes ts) ps ls) :
    Gives Expr.bare (multiHash stop bound sub o ts) (.hash ps 0) ls ts.length := by
  rw [multiHash]
  refine (pairs_complete stop hC hb hb h).bind ?_
  rintro ps rest rfl hr hlt
  exact ⟨.hash ps o, rest, rfl, by simp only [Expr.bare], hr, hlt⟩

theorem afterDot_complete {least : Nat} {ts : List Token} {b : Expr} {ls : List Lexeme}
    (hb : ts.length ≤ bound) (h : AfterDot S least (lexemes ts) b ls) :
    Gives Expr.bare (afterDot stop bound sub least ts) b ls ts.length := by
  generalize hl : lexemes ts = l at h
  cases h with
  | @expr t _ _ _ ht h =>
    -- What may follow a dot as an expression is told by its first lexeme.
    have hd : afterDot stop bound sub least ts = sub least ts := by
      obtain ⟨o, ts, rfl, -⟩ := lexemes_eq_cons.mp hl
      match t, ht with
      | .identifier _, _ => rfl
      | .quotedIdentifier _, _ => rfl
      | .symbol .star, _ => rfl
    rw [← hl] at h
    rw [hd]
    exact hC.gives hb h
  | list h =>
    obtain ⟨o, ts, rfl, rfl⟩ := lexemes_eq_cons.mp hl
    rw [List.length_cons] at hb
    exact (multiList_complete stop hC o (by omega) h).mono (Nat.le_succ _)
  | hash h =>
    obtain ⟨o, ts, rfl, rfl⟩ := lexemes_eq_cons.mp hl
    rw [List.length_cons] at hb
    exact (multiHash_complete stop hC o (by omega) h).mono (Nat.le_succ _)

theorem projected_complete {least : Nat} {ts : List Token} {b : Expr} {ls : List Lexeme}
    (hb : ts.length ≤ bound) (h : Projected S least (lexemes ts) b ls) :
    Gives Expr.bare (projected stop bound sub least ts) b ls (ts.length + 1) := by
  generalize hl : lexemes ts = l at h
  unfold projected
  cases h with
  | stop hp =>
    rw [← hl, ← power_eq] at hp
    rw [if_pos hp]
    exact ⟨_, ts, rfl, rfl, hl, Nat.lt_succ_self _⟩
  | bracket h =>
    rw [← hl] at h
    obtain ⟨o, ts, rfl, -⟩ := lexemes_eq_cons.mp hl
    exact (hC.gives hb h).mono (Nat.le_succ _)
  | filter h =>
    rw [← hl] at h
    obtain ⟨o, ts, rfl, -⟩ := lexemes_eq_cons.mp hl
    exact (hC.gives hb h).mono (Nat.le_succ _)
  | dot h =>
    obtain ⟨o, ts, rfl, rfl⟩ := lexemes_eq_cons.mp hl
    rw [List.length_cons] at hb
    exact (afterDot_complete stop hC (by omega) h).mono (Nat.le_add_right _ 2)

theorem bracketed_complete (left : Expr) (o : Nat) {b : Expr} {ts : List Token} {ls : List Lexeme}
    (hb : ts.length ≤ bound) (h : Bracketed S left.bare (lexemes ts) b ls) :
    Gives Expr.bare (bracketed stop bound sub left o ts) b ls ts.length := by
  unfold bracketed
  cases h with
  | index h =>
    refine (bracket_complete stop h).bind ?_
    rintro _ rest rfl hr hlt
    exact ⟨_, rest, rfl, bare_indexed left _ o, hr, hlt⟩
  | slice h hp =>
    refine (bracket_complete stop h).bind ?_
    rintro _ mid rfl rfl hlt
    refine (projected_complete stop hC (by omega) hp).bind ?_
    rintro right rest rfl hr hlt'
    exact ⟨_, rest, rfl, by rw [Expr.bare, bare_indexed], hr, by omega⟩

theorem filtered_complete (left : Expr) (o : Nat) {b : Expr} {ts : List Token} {ls : List Lexeme}
    (hb : ts.length ≤ bound) (h : Filtered S left.bare (lexemes ts) b ls) :
    Gives Expr.bare (filtered stop bound sub left o ts) b ls ts.length := by
  unfold filtered
  cases h with
  | intro h hp =>
    refine (hC.gives hb h).bind ?_
    rintro p mid' rfl hr hlt
    obtain ⟨o', mid, rfl, rfl⟩ := lexemes_eq_cons.mp hr
    rw [List.length_cons] at hlt
    have hp := projected_complete stop hC (by omega) hp
    dsimp only
    rw [expect_cons_bind]
    split
    · -- The parser leaves the right side out before a flattening, which ends a projection.
      rw [projected_of_lt (by exact Nat.lt_succ_self 9)] at hp
      obtain ⟨_, rest, hx, rfl, hr', hlt'⟩ := hp
      cases hx
      exact ⟨_, _, rfl, by simp only [Expr.bare], hr', by omega⟩
    · refine hp.bind ?_
      rintro right rest rfl hr' hlt'
      exact ⟨_, rest, rfl, by simp only [Expr.bare], hr', by omega⟩

theorem flattened_complete (left : Expr) (o : Nat) {b : Expr} {ts : List Token} {ls : List Lexeme}
    (hb : ts.length ≤ bound)
    (h : Projected S (Lexeme.power (.symbol .flatten)) (lexemes ts) b ls) :
    Gives Expr.bare (flattened stop bound sub left o ts)
      (.binary .eachItem (.unary .flatten left.bare 0) b 0) ls (ts.length + 1) := by
  rw [flattened]
  refine (projected_complete stop hC hb h).bind ?_
  rintro right rest rfl hr hlt
  exact ⟨_, rest, rfl, by simp only [Expr.bare], hr, hlt⟩

theorem operand_complete {ts : List Token} {b : Expr} {ls : List Lexeme}
    (hb : ts.length ≤ bound) (h : Operand S (lexemes ts) b ls) :
    Gives Expr.bare (operand stop bound sub ts) b ls ts.length := by
  generalize hl : lexemes ts = l at h
  cases ts with
  | nil => cases hl; cases h
  | cons t ts =>
  obtain ⟨l, o⟩ := t
  rw [lexemes_cons] at hl
  rw [List.length_cons] at hb ⊢
  have hb' : ts.length ≤ bound := by omega
  unfold operand
  cases h with
  | identifier | rawString | literal | current =>
    obtain ⟨rfl, rfl⟩ := List.cons.inj hl
    exact ⟨_, ts, rfl, by simp only [Expr.bare], rfl, Nat.lt_succ_self _⟩
  | quotedIdentifier hn =>
    obtain ⟨rfl, rfl⟩ := List.cons.inj hl
    dsimp only
    split
    · exact absurd hn Bool.noConfusion
    · exact ⟨_, ts, rfl, by simp only [Expr.bare], rfl, Nat.lt_succ_self _⟩
  | values h =>
    obtain ⟨rfl, rfl⟩ := List.cons.inj hl
    dsimp only
    have hp := projected_complete stop hC hb' h
    split
    · -- The parser leaves the right side out before a closing bracket, which binds nothing.
      rw [projected_of_lt (by exact Nat.zero_lt_succ 9)] at hp
      obtain ⟨_, rest, hx, rfl, hr, hlt⟩ := hp
      cases hx
      exact ⟨_, _, rfl, by simp only [Expr.bare]; rfl, hr, hlt⟩
    · refine hp.bind ?_
      rintro right rest rfl hr hlt
      exact ⟨_, rest, rfl, by simp only [Expr.bare]; rfl, hr, hlt⟩
  | filter h =>
    obtain ⟨rfl, rfl⟩ := List.cons.inj hl
    exact (filtered_complete stop hC (.atom .identity o) o hb' h).mono (Nat.le_succ _)
  | flatten h =>
    obtain ⟨rfl, rfl⟩ := List.cons.inj hl
    exact flattened_complete stop hC (.atom .identity o) o hb' h
  | not h =>
    obtain ⟨rfl, rfl⟩ := List.cons.inj hl
    refine (hC.gives hb' h).bind ?_
    rintro e rest rfl hr hlt
    exact ⟨_, rest, rfl, by simp only [Expr.bare], hr, Nat.lt_succ_of_lt hlt⟩
  | group h =>
    obtain ⟨rfl, rfl⟩ := List.cons.inj hl
    refine (hC.gives hb' h).bind ?_
    rintro e rest' rfl hr hlt
    obtain ⟨o', rest, rfl, rfl⟩ := lexemes_eq_cons.mp hr
    rw [List.length_cons] at hlt
    dsimp only
    rw [expect_cons_bind]
    exact ⟨e, rest, rfl, rfl, rfl, by omega⟩
  | hash h =>
    obtain ⟨rfl, rfl⟩ := List.cons.inj hl
    exact (multiHash_complete stop hC o hb' h).mono (Nat.le_succ _)
  | reference h =>
    obtain ⟨rfl, rfl⟩ := List.cons.inj hl
    refine (hC.gives hb' h).bind ?_
    rintro e rest rfl hr hlt
    exact ⟨_, rest, rfl, by simp only [Expr.bare], hr, Nat.lt_succ_of_lt hlt⟩
  | bracket ho h =>
    obtain ⟨rfl, rfl⟩ := List.cons.inj hl
    rw [← startsBracket_eq] at ho
    dsimp only
    rw [if_pos ho]
    exact (bracketed_complete stop hC (.atom .identity o) o hb' h).mono (Nat.le_succ _)
  | items h =>
    obtain ⟨rfl, h1⟩ := List.cons.inj hl
    obtain ⟨o', ts, rfl, h2⟩ := lexemes_eq_cons.mp h1
    obtain ⟨o'', ts, rfl, rfl⟩ := lexemes_eq_cons.mp h2
    simp only [List.length_cons] at hb ⊢
    rw [if_neg (by simp [startsBracket, startsWithColon])]
    refine (projected_complete stop hC (by omega) h).bind ?_
    rintro right rest rfl hr hlt
    exact ⟨_, rest, rfl, by simp only [Expr.bare]; rfl, hr, by omega⟩
  | list ho hi h =>
    obtain ⟨rfl, rfl⟩ := List.cons.inj hl
    rw [← startsBracket_eq] at ho
    dsimp only
    rw [if_neg (by rw [ho]; exact Bool.noConfusion)]
    split
    · exact absurd hi Bool.noConfusion
    · exact (multiList_complete stop hC o hb' h).mono (Nat.le_succ _)

theorem infixed_complete (op : BinaryOp) {least : Nat} (left : Expr) (o : Nat) {b : Expr}
    {ts : List Token} {ls : List Lexeme} (hb : ts.length ≤ bound) (h : S least (lexemes ts) b ls) :
    Gives Expr.bare (infixed sub op least left o ts) (.binary op left.bare b 0) ls
      ts.length := by
  unfold infixed
  refine (hC.gives hb h).bind ?_
  rintro right rest rfl hr hlt
  exact ⟨_, rest, rfl, by simp only [Expr.bare], hr, hlt⟩

theorem compared_complete (c : Comparator) {least : Nat} (left : Expr) (o : Nat) {b : Expr}
    {ts : List Token} {ls : List Lexeme} (hb : ts.length ≤ bound) (h : S least (lexemes ts) b ls)
    (hn : compares ls = false) :
    Gives Expr.bare (compared stop sub c least left o ts) (.binary (.compare c) left.bare b 0)
      ls ts.length := by
  unfold compared
  refine (hC.gives hb h).bind ?_
  rintro right rest rfl rfl hlt
  rw [← startsWithComparator_eq] at hn
  dsimp only
  rw [if_neg (by rw [hn]; exact Bool.noConfusion)]
  exact ⟨_, rest, rfl, by simp only [Expr.bare], rfl, hlt⟩

theorem extend_complete {left b : Expr} {t : Token} {ts : List Token} {ls : List Lexeme}
    (hb : ts.length ≤ bound) (h : Extension S left.bare (t.lexeme :: lexemes ts) b ls) :
    Gives Expr.bare (extend stop bound sub left t ts) b ls (ts.length + 1) := by
  obtain ⟨l, o⟩ := t
  generalize hl : lexemes ts = l' at h
  generalize hlb : left.bare = lb at h
  dsimp only at h
  unfold extend
  cases h with
  | values h =>
    obtain ⟨o', ts, rfl, rfl⟩ := lexemes_eq_cons.mp hl
    subst hlb
    rw [List.length_cons] at hb ⊢
    refine (projected_complete stop hC (by omega) h).bind ?_
    rintro right rest rfl hr hlt
    exact ⟨_, rest, rfl, by simp only [Expr.bare], hr, by omega⟩
  | step hn h =>
    subst hl hlb
    dsimp only
    split
    · exact absurd hn Bool.noConfusion
    · refine (afterDot_complete stop hC hb h).bind ?_
      rintro right rest rfl hr hlt
      exact ⟨_, rest, rfl, by simp only [Expr.bare], hr, by omega⟩
  | bracket ho h =>
    subst hl hlb
    rw [← startsBracket_eq] at ho
    dsimp only
    rw [if_pos ho]
    exact (bracketed_complete stop hC left o hb h).mono (Nat.le_succ _)
  | items h =>
    obtain ⟨o', ts, rfl, h1⟩ := lexemes_eq_cons.mp hl
    obtain ⟨o'', ts, rfl, rfl⟩ := lexemes_eq_cons.mp h1
    subst hlb
    simp only [List.length_cons] at hb ⊢
    rw [if_neg (by simp [startsBracket, startsWithColon]), expect_cons_bind, expect_cons_bind]
    refine (projected_complete stop hC (by omega) h).bind ?_
    rintro right rest rfl hr hlt
    exact ⟨_, rest, rfl, by simp only [Expr.bare], hr, by omega⟩
  | filter h =>
    subst hl hlb
    exact (filtered_complete stop hC left o hb h).mono (Nat.le_succ _)
  | flatten h =>
    subst hl hlb
    exact flattened_complete stop hC left o hb h
  | @infixed _ s op _ _ _ hs h =>
    subst hl hlb
    have h := (infixed_complete hC op left o hb h).mono (Nat.le_succ _)
    cases s <;> cases hs <;> exact h
  | @compare _ s c _ _ _ hs h hn =>
    subst hl hlb
    have h := (compared_complete stop hC c left o hb h hn).mono (Nat.le_succ _)
    cases s <;> cases hs <;> exact h
  | @call name _ _ _ h =>
    subst hl
    obtain ⟨o', rfl⟩ := bare_eq_field hlb
    refine (arguments_complete stop hC name hb hb h).bind ?_
    rintro args rest rfl hr hlt
    exact ⟨_, rest, rfl, by simp only [Expr.bare], hr, by omega⟩

theorem operators_complete {least fuel : Nat} {left b : Expr} {ts : List Token}
    {ls : List Lexeme} (hb : ts.length ≤ bound) (hf : ts.length ≤ fuel)
    (h : Operators S least left.bare (lexemes ts) b ls) :
    Gives Expr.bare (operators stop bound sub least fuel left ts) b ls (ts.length + 1) := by
  generalize hl : lexemes ts = l at h
  generalize hlb : left.bare = lb at h
  -- The induction is on the operators; each takes a token, so the bound is not used up.
  induction h generalizing ts fuel left with
  | stop hp =>
    subst hl hlb
    refine ⟨left, ts, ?_, rfl, rfl, Nat.lt_succ_self _⟩
    cases fuel with
    | zero => rfl
    | succ fuel =>
      cases ts with
      | nil => rfl
      | cons t ts =>
        rw [operators]
        exact if_neg (Nat.not_lt_of_le hp)
  | more hp h _ ih =>
    subst hl hlb
    cases ts with
    | nil => exact absurd hp (Nat.not_lt_zero _)
    | cons t ts =>
      rw [List.length_cons] at hb hf ⊢
      cases fuel with
      | zero => omega
      | succ fuel =>
        rw [operators, if_pos (by exact hp)]
        refine (extend_complete stop hC (by omega) h).bind ?_
        rintro e mid rfl rfl hlt
        exact (ih (by omega) (by omega : mid.length ≤ fuel) rfl rfl).mono (by omega)

end

/-! ### The parser -/

theorem reads_opens {n least : Nat} {ls rest : List Lexeme} {b : Expr} {s : Symbol}
    (hs : isCloser s = true) (h : Reads n least ls b rest) : startsWith s ls = false := by
  cases n with
  | zero => exact h.elim
  | succ n =>
    obtain ⟨_, _, ho, -⟩ := h
    cases ho <;> cases s <;> first | rfl | cases hs

/-- The parser gives whatever the grammar reads at the same level. -/
theorem complete_expression (stop bound n : Nat) :
    Complete bound (expression stop bound n) (Reads n) := by
  induction n with
  | zero =>
    constructor
    · intro least ts b ls _ h
      exact h.elim
    · intro least ls b rest s _ h
      exact h.elim
  | succ n ih =>
    constructor
    · rintro least ts b ls hb ⟨lb, mid, ho, hops⟩
      rw [expression]
      refine (operand_complete stop ih hb ho).bind ?_
      rintro left mid rfl rfl hlt
      exact (operators_complete stop ih (by omega) (by omega : mid.length ≤ bound) hops).mono hlt
    · intro least ls b rest s hs h
      exact reads_opens hs h

/-- Lexemes as tokens, their places left out. -/
def plain (ls : List Lexeme) : List Token :=
  ls.map (⟨·, 0⟩)

@[simp] theorem lexemes_plain (ls : List Lexeme) : lexemes (plain ls) = ls := by
  induction ls with
  | nil => rfl
  | cons l ls ih => exact congrArg (l :: ·) ih

theorem Gives.unique {α β : Type} {view : α → β} {x : Except ParseError (α × List Token)}
    {b b' : β} {ls ls' : List Lexeme} {k k' : Nat} (h : Gives view x b ls k)
    (h' : Gives view x b' ls' k') : b = b' ∧ ls = ls' := by
  obtain ⟨a, rest, hx, rfl, rfl, -⟩ := h
  obtain ⟨a', rest', hx', rfl, rfl, -⟩ := h'
  rw [hx] at hx'
  cases hx'
  exact ⟨rfl, rfl⟩

theorem bracket_unique {ls rest rest' : List Lexeme} {a a' : Atom} (h : Bracket ls a rest)
    (h' : Bracket ls a' rest') : a = a' ∧ rest = rest' := by
  rw [← lexemes_plain ls] at h h'
  exact (bracket_complete 0 h).unique (bracket_complete 0 h')

theorem operand_unique {n m : Nat} {ls rest rest' : List Lexeme} {b b' : Expr}
    (h : Operand (Reads n) ls b rest) (h' : Operand (Reads m) ls b' rest') :
    b = b' ∧ rest = rest' := by
  have complete := complete_expression 0 (plain ls).length (max n m)
  have h := operand_mono (fun _ _ _ _ => reads_mono (Nat.le_max_left n m)) h
  have h' := operand_mono (fun _ _ _ _ => reads_mono (Nat.le_max_right n m)) h'
  rw [← lexemes_plain ls] at h h'
  exact (operand_complete 0 complete (Nat.le_refl _) h).unique
    (operand_complete 0 complete (Nat.le_refl _) h')

theorem extension_unique {n m : Nat} {left b b' : Expr} {ls rest rest' : List Lexeme}
    (h : Extension (Reads n) left.bare ls b rest) (h' : Extension (Reads m) left.bare ls b' rest') :
    b = b' ∧ rest = rest' := by
  cases ls with
  | nil =>
    generalize left.bare = lb at h
    cases h
  | cons l ls =>
    have complete := complete_expression 0 (plain ls).length (max n m)
    have h := extension_mono (fun _ _ _ _ => reads_mono (Nat.le_max_left n m)) h
    have h' := extension_mono (fun _ _ _ _ => reads_mono (Nat.le_max_right n m)) h'
    rw [← lexemes_plain ls] at h h'
    exact (extend_complete 0 complete (t := ⟨l, 0⟩) (Nat.le_refl _) h).unique
      (extend_complete 0 complete (t := ⟨l, 0⟩) (Nat.le_refl _) h')

/-- Two readings of the same lexemes are one, at whatever levels. -/
theorem reads_unique {n m least : Nat} {ls rest rest' : List Lexeme} {b b' : Expr}
    (h : Reads n least ls b rest) (h' : Reads m least ls b' rest') : b = b' ∧ rest = rest' := by
  -- Both are read at the higher of the two levels, where the parser gives them.
  have complete := complete_expression 0 (plain ls).length (max n m)
  have h := reads_mono (Nat.le_max_left n m) h
  have h' := reads_mono (Nat.le_max_right n m) h'
  rw [← lexemes_plain ls] at h h'
  exact (complete.gives (Nat.le_refl _) h).unique (complete.gives (Nat.le_refl _) h')

theorem elements_unique {n m : Nat} {ls rest rest' : List Lexeme} {es es' : List Expr}
    (h : Elements (Reads n) ls es rest) (h' : Elements (Reads m) ls es' rest') :
    es = es' ∧ rest = rest' := by
  have complete := complete_expression 0 (plain ls).length (max n m)
  have h := elements_mono (fun _ _ _ _ => reads_mono (Nat.le_max_left n m)) h
  have h' := elements_mono (fun _ _ _ _ => reads_mono (Nat.le_max_right n m)) h'
  rw [← lexemes_plain ls] at h h'
  exact (elements_complete 0 complete (Nat.le_refl _) (Nat.le_refl _) h).unique
    (elements_complete 0 complete (Nat.le_refl _) (Nat.le_refl _) h')

theorem pairs_unique {n m : Nat} {ls rest rest' : List Lexeme} {ps ps' : List (Text × Expr)}
    (h : Pairs (Reads n) ls ps rest) (h' : Pairs (Reads m) ls ps' rest') :
    ps = ps' ∧ rest = rest' := by
  have complete := complete_expression 0 (plain ls).length (max n m)
  have h := pairs_mono (fun _ _ _ _ => reads_mono (Nat.le_max_left n m)) h
  have h' := pairs_mono (fun _ _ _ _ => reads_mono (Nat.le_max_right n m)) h'
  rw [← lexemes_plain ls] at h h'
  exact (pairs_complete 0 complete (Nat.le_refl _) (Nat.le_refl _) h).unique
    (pairs_complete 0 complete (Nat.le_refl _) (Nat.le_refl _) h')

end Grammar
end JsonQuery
