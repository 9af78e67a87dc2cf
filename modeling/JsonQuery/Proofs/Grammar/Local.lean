/-
Readings depend on what they read and on one lexeme more.

An expression does not see what stands after it, except for the power of the next lexeme and for
a few symbols that would continue it.  So what follows may give way (`GivesWay`) to anything that
starts with the same lexeme, or that binds nothing.

* `Grammar.Local` — a reading consumes something, and what follows may be exchanged;
* `Grammar.local_reads` — the readings of expressions are local.
-/
import JsonQuery.Proofs.Grammar

namespace JsonQuery
namespace Grammar

open JsonQuery.Parser

/-! ### What follows a reading -/

/-- Where an expression stops before the first continuation, it does not go on into the second. -/
def GivesWay (r r' : List Lexeme) : Prop :=
  r.head? = r'.head? ∨ headPower r' = 0

theorem givesWay_cons (t : Lexeme) (r r' : List Lexeme) : GivesWay (t :: r) (t :: r') :=
  .inl rfl

theorem GivesWay.append {r r' : List Lexeme} (h : GivesWay r r') (u : List Lexeme) :
    GivesWay (u ++ r) (u ++ r') := by
  cases u with
  | nil => exact h
  | cons t u => exact givesWay_cons t _ _

theorem headPower_congr {r r' : List Lexeme} (h : r.head? = r'.head?) :
    headPower r = headPower r' := by
  cases r <;> cases r' <;> simp only [List.head?_nil, List.head?_cons, Option.some.injEq,
    reduceCtorEq] at h
  · rfl
  · rw [headPower, headPower, h]

theorem startsWith_congr {s : Symbol} {r r' : List Lexeme} (h : r.head? = r'.head?) :
    startsWith s r = startsWith s r' := by
  cases r <;> cases r' <;> simp only [List.head?_nil, List.head?_cons, Option.some.injEq,
    reduceCtorEq] at h
  · rfl
  · subst h
    cases ‹Lexeme› <;> rfl

/-- Only the first lexeme is looked at. -/
theorem startsWith_cons {s : Symbol} {t : Lexeme} {r : List Lexeme} (r' : List Lexeme)
    (h : startsWith s (t :: r) = false) : startsWith s (t :: r') = false := by
  rw [← h]
  exact startsWith_congr rfl

theorem compares_congr {r r' : List Lexeme} (h : r.head? = r'.head?) :
    compares r = compares r' := by
  cases r <;> cases r' <;> simp only [List.head?_nil, List.head?_cons, Option.some.injEq,
    reduceCtorEq] at h
  · rfl
  · subst h
    cases ‹Lexeme› <;> rfl

theorem startsWith_eq_false {s : Symbol} {r : List Lexeme} (h : headPower r = 0)
    (hs : Lexeme.power (.symbol s) ≠ 0) : startsWith s r = false := by
  rw [← Bool.not_eq_true, startsWith_iff]
  rintro ⟨r', rfl⟩
  exact hs h

theorem compares_eq_false {r : List Lexeme} (h : headPower r = 0) : compares r = false := by
  match r with
  | [] => rfl
  | .symbol s :: _ =>
    simp only [headPower] at h
    cases s <;> first | rfl | simp [Lexeme.power] at h
  | .identifier _ :: _ | .quotedIdentifier _ :: _ | .rawString _ :: _ | .literal _ :: _
  | .number _ :: _ => rfl

theorem GivesWay.headPower_le {r r' : List Lexeme} (h : GivesWay r r') :
    headPower r' ≤ headPower r := by
  rcases h with h | h
  · exact Nat.le_of_eq (headPower_congr h).symm
  · rw [h]
    exact Nat.zero_le _

theorem GivesWay.startsWith_eq_false {r r' : List Lexeme} (h : GivesWay r r') {s : Symbol}
    (hs : Lexeme.power (.symbol s) ≠ 0) (hr : startsWith s r = false) :
    startsWith s r' = false := by
  rcases h with h | h
  · exact (startsWith_congr h).symm.trans hr
  · exact Grammar.startsWith_eq_false h hs

theorem GivesWay.compares_eq_false {r r' : List Lexeme} (h : GivesWay r r')
    (hr : compares r = false) : compares r' = false := by
  rcases h with h | h
  · exact (compares_congr h).symm.trans hr
  · exact Grammar.compares_eq_false h

theorem opensIndex_congr {r r' : List Lexeme} (h : r.head? = r'.head?) :
    opensIndex r = opensIndex r' := by
  cases r <;> cases r' <;> simp only [List.head?_nil, List.head?_cons, Option.some.injEq,
    reduceCtorEq] at h
  · rfl
  · subst h
    cases ‹Lexeme› <;> rfl

theorem opensItems_congr {t t' : Lexeme} {r r' : List Lexeme} :
    opensItems (t :: t' :: r) = opensItems (t :: t' :: r') := by
  cases t
  case symbol s => cases s <;> first | rfl | exact startsWith_congr rfl
  all_goals rfl

theorem opensSlice_congr {t t' : Lexeme} (r r' : List Lexeme) :
    opensSlice (t :: t' :: r) = opensSlice (t :: t' :: r') := by
  cases t
  case number => exact startsWith_congr rfl
  all_goals rfl

/-! ### Readings that close with a bracket of their own -/

/-- A reading consumes at least one lexeme, and what follows it may be exchanged. -/
def Local (S : Reading) : Prop :=
  ∀ ⦃least ts e rest⦄, S least ts e rest →
    ∃ t u, ts = t :: u ++ rest ∧ ∀ rest', GivesWay rest rest' → S least (t :: u ++ rest') e rest'

theorem sliceParts_append {i : Nat} {s r : Slice} {ts rest : List Lexeme}
    (h : SliceParts i s ts r rest) :
    ∃ t u, ts = t :: u ++ rest ∧ ∀ rest', SliceParts i s (t :: u ++ rest') r rest' := by
  induction h with
  | close => exact ⟨_, [], rfl, fun _ => .close⟩
  | colon hi _ ih =>
    obtain ⟨t, u, rfl, hu⟩ := ih
    exact ⟨_, t :: u, rfl, fun rest' => .colon hi (hu rest')⟩
  | number hs _ ih =>
    obtain ⟨t, u, rfl, hu⟩ := ih
    exact ⟨_, t :: u, rfl, fun rest' => .number hs (hu rest')⟩

theorem bracket_append {ts rest : List Lexeme} {a : Atom} (h : Bracket ts a rest) :
    ∃ t u, ts = t :: u ++ rest ∧ ∀ rest', Bracket (t :: u ++ rest') a rest' := by
  cases h with
  | index => exact ⟨_, [_], rfl, fun _ => .index⟩
  | slice ho hp =>
    obtain ⟨t, u, rfl, hu⟩ := sliceParts_append hp
    refine ⟨t, u, rfl, fun rest' => .slice ?_ (hu rest')⟩
    cases u with
    | cons t' u => exact (opensSlice_congr _ _).trans ho
    | nil =>
      -- A slice has a colon before its closing bracket, so it is longer than one lexeme.
      cases hu [] with
      | close => simp [opensSlice, startsWith] at ho
      | colon _ h => cases h
      | number _ h => cases h

section
variable {S : Reading} (hS : Local S)
include hS

theorem elements_append {ts rest : List Lexeme} {es : List Expr} (h : Elements S ts es rest) :
    ∃ t t' u, ts = t :: t' :: u ++ rest ∧
      ∀ rest', Elements S (t :: t' :: u ++ rest') es rest' := by
  induction h with
  | last he =>
    obtain ⟨t, u, rfl, hu⟩ := hS he
    -- The closing bracket belongs to the list, so what follows it is not seen from inside.
    have hw := fun rest' =>
      Elements.last (hu (.symbol .rightBracket :: rest') (givesWay_cons _ _ _))
    cases u with
    | nil => exact ⟨t, _, [], rfl, hw⟩
    | cons t' u => exact ⟨t, t', u ++ [.symbol .rightBracket], by simp, by simpa using hw⟩
  | more he _ ih =>
    obtain ⟨t, u, rfl, hu⟩ := hS he
    obtain ⟨t1, t2, v, rfl, hv⟩ := ih
    have hw := fun rest' => Elements.more
      (hu (.symbol .comma :: (t1 :: t2 :: v ++ rest')) (givesWay_cons _ _ _)) (hv rest')
    cases u with
    | nil => exact ⟨t, _, t1 :: t2 :: v, rfl, hw⟩
    | cons t' u => exact ⟨t, t', u ++ .symbol .comma :: t1 :: t2 :: v, by simp, by simpa using hw⟩

theorem pairs_append {ts rest : List Lexeme} {ps : List (Text × Expr)}
    (h : Pairs S ts ps rest) :
    ∃ t u, ts = t :: u ++ rest ∧ ∀ rest', Pairs S (t :: u ++ rest') ps rest' := by
  induction h with
  | @last k _ _ _ _ hk he =>
    obtain ⟨t, u, rfl, hu⟩ := hS he
    have hw := fun rest' =>
      Pairs.last hk (hu (.symbol .rightBrace :: rest') (givesWay_cons _ _ _))
    exact ⟨k, .symbol .colon :: t :: u ++ [.symbol .rightBrace], by simp, by simpa using hw⟩
  | @more k _ _ _ _ _ _ hk he _ ih =>
    obtain ⟨t, u, rfl, hu⟩ := hS he
    obtain ⟨t', v, rfl, hv⟩ := ih
    have hw := fun rest' => Pairs.more hk
      (hu (.symbol .comma :: (t' :: v ++ rest')) (givesWay_cons _ _ _)) (hv rest')
    exact ⟨k, .symbol .colon :: t :: u ++ .symbol .comma :: t' :: v, by simp, by simpa using hw⟩

theorem arguments_append {ts rest : List Lexeme} {es : List Expr}
    (h : Arguments S ts es rest) :
    ∃ t u, ts = t :: u ++ rest ∧ ∀ rest', Arguments S (t :: u ++ rest') es rest' := by
  induction h with
  | none => exact ⟨_, [], rfl, fun _ => .none⟩
  | last he =>
    obtain ⟨t, u, rfl, hu⟩ := hS he
    have hw := fun rest' =>
      Arguments.last (hu (.symbol .rightParen :: rest') (givesWay_cons _ _ _))
    exact ⟨t, u ++ [.symbol .rightParen], by simp, by simpa using hw⟩
  | more he hm _ ih =>
    obtain ⟨t, u, rfl, hu⟩ := hS he
    obtain ⟨t', v, rfl, hv⟩ := ih
    have hw := fun rest' => Arguments.more
      (hu (.symbol .comma :: (t' :: v ++ rest')) (givesWay_cons _ _ _))
      (startsWith_cons _ hm) (hv rest')
    exact ⟨t, u ++ .symbol .comma :: t' :: v, by simp, by simpa using hw⟩

/-! ### Readings that end before a lexeme of less power -/

theorem afterDot_append {least : Nat} {ts rest : List Lexeme} {e : Expr}
    (h : AfterDot S least ts e rest) :
    ∃ t u, ts = t :: u ++ rest ∧
      ∀ rest', GivesWay rest rest' → AfterDot S least (t :: u ++ rest') e rest' := by
  cases h with
  | expr ht he =>
    obtain ⟨t, u, heq, hu⟩ := hS he
    rw [List.cons_append, List.cons.injEq] at heq
    obtain ⟨rfl, rfl⟩ := heq
    exact ⟨_, u, rfl, fun rest' hr => .expr ht (hu rest' hr)⟩
  | list h =>
    obtain ⟨t, t', u, rfl, hu⟩ := elements_append hS h
    exact ⟨_, t :: t' :: u, rfl, fun rest' _ => .list (hu rest')⟩
  | hash h =>
    obtain ⟨t, u, rfl, hu⟩ := pairs_append hS h
    exact ⟨_, t :: u, rfl, fun rest' _ => .hash (hu rest')⟩

theorem projected_append {least : Nat} {ts rest : List Lexeme} {e : Expr}
    (h : Projected S least ts e rest) :
    ∃ u, ts = u ++ rest ∧
      ∀ rest', GivesWay rest rest' → Projected S least (u ++ rest') e rest' := by
  cases h with
  | stop hp =>
    exact ⟨[], rfl, fun rest' hr => .stop (Nat.lt_of_le_of_lt hr.headPower_le hp)⟩
  | bracket he =>
    obtain ⟨t, u, heq, hu⟩ := hS he
    rw [List.cons_append, List.cons.injEq] at heq
    obtain ⟨rfl, rfl⟩ := heq
    exact ⟨_ :: u, rfl, fun rest' hr => .bracket (hu rest' hr)⟩
  | filter he =>
    obtain ⟨t, u, heq, hu⟩ := hS he
    rw [List.cons_append, List.cons.injEq] at heq
    obtain ⟨rfl, rfl⟩ := heq
    exact ⟨_ :: u, rfl, fun rest' hr => .filter (hu rest' hr)⟩
  | dot h =>
    obtain ⟨t, u, rfl, hu⟩ := afterDot_append hS h
    exact ⟨_ :: t :: u, rfl, fun rest' hr => .dot (hu rest' hr)⟩

theorem bracketed_append {left : Expr} {ts rest : List Lexeme} {e : Expr}
    (h : Bracketed S left ts e rest) :
    ∃ t u, ts = t :: u ++ rest ∧
      ∀ rest', GivesWay rest rest' → Bracketed S left (t :: u ++ rest') e rest' := by
  cases h with
  | index h =>
    obtain ⟨t, u, rfl, hu⟩ := bracket_append h
    exact ⟨t, u, rfl, fun rest' _ => .index (hu rest')⟩
  | slice h hp =>
    obtain ⟨t, u, rfl, hu⟩ := bracket_append h
    obtain ⟨v, rfl, hv⟩ := projected_append hS hp
    refine ⟨t, u ++ v, by simp, ?_⟩
    intro rest' hr
    rw [List.cons_append, List.append_assoc]
    exact .slice (hu (v ++ rest')) (hv rest' hr)

theorem filtered_append {left : Expr} {ts rest : List Lexeme} {e : Expr}
    (h : Filtered S left ts e rest) :
    ∃ t u, ts = t :: u ++ rest ∧
      ∀ rest', GivesWay rest rest' → Filtered S left (t :: u ++ rest') e rest' := by
  cases h with
  | intro he hp =>
    obtain ⟨t, u, rfl, hu⟩ := hS he
    obtain ⟨v, rfl, hv⟩ := projected_append hS hp
    refine ⟨t, u ++ .symbol .rightBracket :: v, by simp, ?_⟩
    intro rest' hr
    rw [List.cons_append, List.append_assoc, List.cons_append]
    exact .intro (hu (.symbol .rightBracket :: (v ++ rest')) (givesWay_cons _ _ _)) (hv rest' hr)

theorem operand_append {ts rest : List Lexeme} {e : Expr} (h : Operand S ts e rest) :
    ∃ t u, ts = t :: u ++ rest ∧
      ∀ rest', GivesWay rest rest' → Operand S (t :: u ++ rest') e rest' := by
  cases h with
  | identifier => exact ⟨_, [], rfl, fun _ _ => .identifier⟩
  | quotedIdentifier h =>
    exact ⟨_, [], rfl, fun rest' hr =>
      .quotedIdentifier (hr.startsWith_eq_false (by decide) h)⟩
  | rawString => exact ⟨_, [], rfl, fun _ _ => .rawString⟩
  | literal => exact ⟨_, [], rfl, fun _ _ => .literal⟩
  | current => exact ⟨_, [], rfl, fun _ _ => .current⟩
  | values hp =>
    obtain ⟨u, rfl, hu⟩ := projected_append hS hp
    exact ⟨_, u, rfl, fun rest' hr => .values (hu rest' hr)⟩
  | filter h =>
    obtain ⟨t, u, rfl, hu⟩ := filtered_append hS h
    exact ⟨_, t :: u, rfl, fun rest' hr => .filter (hu rest' hr)⟩
  | flatten hp =>
    obtain ⟨u, rfl, hu⟩ := projected_append hS hp
    exact ⟨_, u, rfl, fun rest' hr => .flatten (hu rest' hr)⟩
  | not he =>
    obtain ⟨t, u, rfl, hu⟩ := hS he
    exact ⟨_, t :: u, rfl, fun rest' hr => .not (hu rest' hr)⟩
  | group he =>
    obtain ⟨t, u, rfl, hu⟩ := hS he
    refine ⟨.symbol .leftParen, t :: u ++ [.symbol .rightParen], by simp, ?_⟩
    intro rest' _
    have h := hu (.symbol .rightParen :: rest') (givesWay_cons _ _ _)
    simpa using Operand.group h
  | hash h =>
    obtain ⟨t, u, rfl, hu⟩ := pairs_append hS h
    exact ⟨_, t :: u, rfl, fun rest' _ => .hash (hu rest')⟩
  | reference he =>
    obtain ⟨t, u, rfl, hu⟩ := hS he
    exact ⟨_, t :: u, rfl, fun rest' hr => .reference (hu rest' hr)⟩
  | bracket ho h =>
    obtain ⟨t, u, rfl, hu⟩ := bracketed_append hS h
    refine ⟨_, t :: u, rfl, fun rest' hr => .bracket ?_ (hu rest' hr)⟩
    exact (opensIndex_congr (by rfl)).trans ho
  | items hp =>
    obtain ⟨u, rfl, hu⟩ := projected_append hS hp
    exact ⟨_, _ :: _ :: u, rfl, fun rest' hr => .items (hu rest' hr)⟩
  | list ho hi h =>
    obtain ⟨t, t', u, rfl, hu⟩ := elements_append hS h
    exact ⟨_, t :: t' :: u, rfl, fun rest' _ => .list ((opensIndex_congr (by rfl)).trans ho)
      (opensItems_congr.trans hi) (hu rest')⟩

theorem extension_append {left : Expr} {ts rest : List Lexeme} {e : Expr}
    (h : Extension S left ts e rest) :
    ∃ t u, ts = t :: u ++ rest ∧
      ∀ rest', GivesWay rest rest' → Extension S left (t :: u ++ rest') e rest' := by
  cases h with
  | values hp =>
    obtain ⟨u, rfl, hu⟩ := projected_append hS hp
    exact ⟨_, _ :: u, rfl, fun rest' hr => .values (hu rest' hr)⟩
  | step hs h =>
    obtain ⟨t, u, rfl, hu⟩ := afterDot_append hS h
    exact ⟨_, t :: u, rfl, fun rest' hr => .step (startsWith_cons _ hs) (hu rest' hr)⟩
  | bracket ho h =>
    obtain ⟨t, u, rfl, hu⟩ := bracketed_append hS h
    exact ⟨_, t :: u, rfl, fun rest' hr =>
      .bracket ((opensIndex_congr (by rfl)).trans ho) (hu rest' hr)⟩
  | items hp =>
    obtain ⟨u, rfl, hu⟩ := projected_append hS hp
    exact ⟨_, _ :: _ :: u, rfl, fun rest' hr => .items (hu rest' hr)⟩
  | filter h =>
    obtain ⟨t, u, rfl, hu⟩ := filtered_append hS h
    exact ⟨_, t :: u, rfl, fun rest' hr => .filter (hu rest' hr)⟩
  | flatten hp =>
    obtain ⟨u, rfl, hu⟩ := projected_append hS hp
    exact ⟨_, u, rfl, fun rest' hr => .flatten (hu rest' hr)⟩
  | infixed ho he =>
    obtain ⟨t, u, rfl, hu⟩ := hS he
    exact ⟨_, t :: u, rfl, fun rest' hr => .infixed ho (hu rest' hr)⟩
  | compare hc he hr =>
    obtain ⟨t, u, rfl, hu⟩ := hS he
    exact ⟨_, t :: u, rfl, fun rest' h => .compare hc (hu rest' h) (h.compares_eq_false hr)⟩
  | call h =>
    obtain ⟨t, u, rfl, hu⟩ := arguments_append hS h
    exact ⟨_, t :: u, rfl, fun rest' _ => .call (hu rest')⟩

theorem operators_append {least : Nat} {left : Expr} {ts rest : List Lexeme} {e : Expr}
    (h : Operators S least left ts e rest) :
    ∃ u, ts = u ++ rest ∧
      ∀ rest', GivesWay rest rest' → Operators S least left (u ++ rest') e rest' := by
  induction h with
  | stop hp => exact ⟨[], rfl, fun rest' hr => .stop (Nat.le_trans hr.headPower_le hp)⟩
  | more hp he _ ih =>
    obtain ⟨v, rfl, hv⟩ := ih
    obtain ⟨t, u, rfl, hu⟩ := extension_append hS he
    refine ⟨t :: u ++ v, by simp, ?_⟩
    intro rest' hr
    have hx := hu (v ++ rest') (hr.append v)
    rw [List.append_assoc]
    exact .more hp hx (hv rest' hr)

end

/-- Readings of expressions are local. -/
theorem local_reads (n : Nat) : Local (Reads n) := by
  induction n with
  | zero =>
    intro least ts e rest h
    exact h.elim
  | succ n ih =>
    rintro least ts e rest ⟨left, mid, ho, hl⟩
    obtain ⟨v, rfl, hv⟩ := operators_append ih hl
    obtain ⟨t, u, rfl, hu⟩ := operand_append ih ho
    refine ⟨t, u ++ v, by simp, ?_⟩
    intro rest' hr
    refine ⟨left, v ++ rest', ?_, hv rest' hr⟩
    -- What follows the operand are the operators, which start the same before `rest'`.
    have h := hu (v ++ rest') (hr.append v)
    rwa [List.cons_append, List.append_assoc]

/-- What is read to its end may stand before any lexeme that continues no expression. -/
theorem reads_append {n least : Nat} {ls v : List Lexeme} {e : Expr}
    (h : Reads n least ls e []) (hv : headPower v = 0) : Reads n least (ls ++ v) e v := by
  obtain ⟨t, u, rfl, hu⟩ := local_reads n h
  rw [List.append_nil]
  exact hu v (.inr hv)

end Grammar
end JsonQuery
