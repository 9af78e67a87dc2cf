/-
What calls are of.

A name directly before an opening parenthesis is called, but not if it is quoted.  Parentheses
leave no trace in a tree, though, so the parser cannot tell a name in parentheses from the name
alone: it is called as well, be it quoted or not.

* `Grammar.Named` — some tokens start with a name in a number of pairs of parentheses;
* `Grammar.expression_named` — only such tokens are parsed to a name;
* `Grammar.calls_expression` — what is called in a tree is such a name before a parenthesis;
* `parse_calls` — the calls of a source, and which of them are of an unquoted name directly before
  its parenthesis.
-/
import JsonQuery.Proofs.Expr.Walk
import JsonQuery.Proofs.Grammar.Fault

namespace JsonQuery
namespace Grammar

open JsonQuery.Parser

/-- Some tokens start with a name that stands in `n` pairs of parentheses and itself starts at
`o`.  A quoted name has no opening parenthesis directly after it. -/
inductive Named (name : Text) (o : Nat) : Nat → List Token → List Token → Prop
  | identifier {rest} : Named name o 0 (⟨.identifier name, o⟩ :: rest) rest
  | quotedIdentifier {rest} : startsWith .leftParen (lexemes rest) = false →
      Named name o 0 (⟨.quotedIdentifier name, o⟩ :: rest) rest
  | group {n p q ts rest} : Named name o n ts (⟨.symbol .rightParen, q⟩ :: rest) →
      Named name o (n + 1) (⟨.symbol .leftParen, p⟩ :: ts) rest

/-- Some tokens start with a name in `n` pairs of parentheses and an opening parenthesis. -/
def Called (name : Text) (o n : Nat) (ts : List Token) : Prop :=
  ∃ p rest, Named name o n ts (⟨.symbol .leftParen, p⟩ :: rest)

/-- Some tokens start with an unquoted name and an opening parenthesis. -/
def CalledDirectly (name : Text) (o : Nat) (ts : List Token) : Prop :=
  ∃ p rest, ts = ⟨.identifier name, o⟩ :: ⟨.symbol .leftParen, p⟩ :: rest

variable {stop bound : Nat} {sub : Nat → Step Expr} {items ts rest : List Token} {name : Text}
  {o n : Nat}

/-- The token of a name is followed by what follows the name, or else by the first parenthesis
that closes a pair around it. -/
theorem Named.token (h : Named name o n ts rest) :
    ∃ l v, key? l = some name ∧ ⟨l, o⟩ :: v <:+ ts ∧
      (n = 0 ∧ v = rest ∨ n ≠ 0 ∧ ∃ q r, v = ⟨.symbol .rightParen, q⟩ :: r) := by
  induction h with
  | identifier => exact ⟨_, _, rfl, List.suffix_refl _, .inl ⟨rfl, rfl⟩⟩
  | quotedIdentifier => exact ⟨_, _, rfl, List.suffix_refl _, .inl ⟨rfl, rfl⟩⟩
  | group _ ih =>
    obtain ⟨l, v, hl, hv, hnext⟩ := ih
    refine ⟨l, v, hl, hv.trans (List.suffix_cons _ _), .inr ⟨Nat.succ_ne_zero _, ?_⟩⟩
    rcases hnext with ⟨-, rfl⟩ | ⟨-, hq⟩
    · exact ⟨_, _, rfl⟩
    · exact hq

/-- A name that is called without parentheses around it is unquoted. -/
theorem Called.direct (h : Called name o 0 ts) : CalledDirectly name o ts := by
  obtain ⟨p, rest, h⟩ := h
  cases h with
  | identifier => exact ⟨p, rest, rfl⟩
  | quotedIdentifier hq => cases hq

/-! ### Names -/

section
variable (hS : ∀ least ts, Leaves (sub least ts) ts)
include hS

/-- Only a name alone, or one in parentheses, is an operand that is a name. -/
theorem operand_named
    (hN : ∀ ⦃least ts name o rest⦄, sub least ts = .ok (.atom (.field name) o, rest) →
      ∃ n, Named name o n ts rest)
    (h : operand stop bound sub ts = .ok (.atom (.field name) o, rest)) :
    ∃ n, Named name o n ts rest := by
  cases ts with
  | nil => exact absurd h refuse_ne_ok
  | cons t ts =>
    obtain ⟨l, o'⟩ := t
    unfold operand at h
    dsimp only at h
    -- What starts with other lexemes than these is more than a name.
    have nameless : ∀ {x : Except ParseError (Expr × List Token)},
        Yields ts (fun e => True ∧ Nameless e) x → x ≠ .ok (.atom (.field name) o, rest) :=
      fun hx h => (hx h).1.2 _ _ rfl
    split at h
    · cases h
      exact ⟨0, .identifier⟩
    · split at h
      · exact absurd h refuse_ne_ok
      · next hn =>
        cases h
        exact ⟨0, .quotedIdentifier (startsWith_lexemes_eq_false hn)⟩
    · cases h
    · cases h
    · cases h
    · split at h
      · cases h
      · obtain ⟨_, -, h⟩ := bind_eq_ok.mp h
        cases h
    · exact absurd h (nameless
        (yields_filtered inherited_true (yields_nested hS) trivial (List.suffix_refl ts)))
    · exact absurd h (nameless
        (yields_flattened inherited_true (yields_nested hS) trivial (List.suffix_refl ts)))
    · obtain ⟨_, -, h⟩ := bind_eq_ok.mp h
      cases h
    · simp only [bind_eq_ok, Prod.exists] at h
      obtain ⟨e, mid, he, mid', hc, h⟩ := h
      cases h
      obtain ⟨q, rfl⟩ := expect_eq_ok.mp hc
      obtain ⟨n, hn⟩ := hN he
      exact ⟨n + 1, .group hn⟩
    · obtain ⟨_, -, h⟩ := bind_eq_ok.mp h
      cases h
    · obtain ⟨_, -, h⟩ := bind_eq_ok.mp h
      cases h
    · split at h
      · exact absurd h (nameless
          (yields_bracketed inherited_true (yields_nested hS) trivial (List.suffix_refl ts)))
      · split at h
        · obtain ⟨_, -, h⟩ := bind_eq_ok.mp h
          cases h
        · obtain ⟨_, -, h⟩ := bind_eq_ok.mp h
          cases h
    · exact absurd h refuse_ne_ok

/-- Operators only give a name if there are none of them. -/
theorem operators_eq_field {least fuel : Nat} {left : Expr}
    (h : operators stop bound sub least fuel left ts = .ok (.atom (.field name) o, rest)) :
    left = .atom (.field name) o ∧ ts = rest := by
  induction fuel generalizing left ts with
  | zero =>
    cases h
    exact ⟨rfl, rfl⟩
  | succ fuel ih =>
    cases ts with
    | nil =>
      cases h
      exact ⟨rfl, rfl⟩
    | cons t ts =>
      rw [operators] at h
      split at h
      · obtain ⟨⟨left', mid⟩, hx, h⟩ := bind_eq_ok.mp h
        obtain ⟨rfl, -⟩ := ih h
        have hnameless := (yields_extend inherited_true (yields_nested hS) trivial
          (fun _ _ _ _ _ _ => trivial) (List.suffix_refl ts) hx).1.2
        exact absurd rfl (hnameless _ _)
      · cases h
        exact ⟨rfl, rfl⟩

end

/-- An expression is only a name if the tokens are the name in some parentheses. -/
theorem expression_named {least : Nat}
    (h : expression stop bound n least ts = .ok (.atom (.field name) o, rest)) :
    ∃ k, Named name o k ts rest := by
  induction n generalizing least ts name o rest with
  | zero => cases h
  | succ n ih =>
    rw [expression] at h
    obtain ⟨⟨left, mid⟩, ho, h⟩ := bind_eq_ok.mp h
    obtain ⟨rfl, rfl⟩ := operators_eq_field (leaves_expression bound n) h
    exact operand_named (leaves_expression bound n) (fun _ _ _ _ _ h => ih h) ho

/-! ### Calls -/

/-- What is called in a tree is a name, in parentheses or not, before an opening parenthesis
among some tokens. -/
def CallsIn (items : List Token) (e : Expr) : Prop :=
  ∀ ⦃name args o⦄, .call name args o ∈ e.walk → ∃ n ts, ts <:+ items ∧ Called name o n ts

theorem inherited_callsIn : Inherited (CallsIn items) := by
  intro e hn hc name args o h
  rw [Expr.walk_eq] at h
  rcases List.mem_cons.mp h with rfl | h
  · exact absurd rfl (hn name args o)
  · obtain ⟨c, hmem, h⟩ := List.mem_flatMap.mp h
    exact hc c hmem h

theorem callsIn_call {args : List Expr} (hts : ts <:+ items) (h : Called name o n ts)
    (hargs : ∀ a ∈ args, CallsIn items a) : CallsIn items (.call name args o) := by
  intro name' args' o' hmem
  rw [Expr.walk_eq] at hmem
  rcases List.mem_cons.mp hmem with hcall | hmem
  · cases hcall
    exact ⟨n, ts, hts, h⟩
  · obtain ⟨a, ha, hmem⟩ := List.mem_flatMap.mp hmem
    exact hargs a ha hmem

/-- Only the first operator after an operand can call it, for then it is not a name any more. -/
theorem calls_operators
    (hS : ∀ least ⦃ts⦄, ts <:+ items → Yields items (CallsIn items) (sub least ts))
    {least fuel : Nat} {left : Expr} (hl : CallsIn items left)
    (hleft : ∀ name o, left = .atom (.field name) o →
      ∃ n us, us <:+ items ∧ Named name o n us ts)
    (h : ts <:+ items) :
    Yields items (CallsIn items) (operators stop bound sub least fuel left ts) := by
  induction fuel generalizing left ts with
  | zero => exact yields_ok hl h
  | succ fuel ih =>
    cases ts with
    | nil => exact yields_ok hl h
    | cons t ts =>
      rw [operators]
      split
      · have hcall : ∀ name args o, left = .atom (.field name) o → t.lexeme = .symbol .leftParen →
            (∀ a ∈ args, CallsIn items a) → CallsIn items (.call name args o) := by
          intro name args o he ht hargs
          obtain ⟨n, us, hus, hn⟩ := hleft name o he
          obtain ⟨l, p⟩ := t
          cases ht
          exact callsIn_call hus ⟨p, ts, hn⟩ hargs
        refine (yields_extend inherited_callsIn hS hl hcall (tail_suffix h)).bind
          fun left' mid hl' hm => ?_
        -- From here on a call would need a name, and what the operator gave is none.
        exact ih hl'.1 (fun name o he => absurd he (hl'.2 name o)) hm
      · exact yields_ok hl h

theorem calls_expression (stop bound n least : Nat) (h : ts <:+ items) :
    Yields items (CallsIn items) (expression stop bound n least ts) := by
  induction n generalizing least ts with
  | zero => nofun
  | succ n ih =>
    intro e rest he
    rw [expression] at he
    obtain ⟨⟨left, mid⟩, ho, he⟩ := bind_eq_ok.mp he
    have hS : ∀ least ⦃ts⦄, ts <:+ items →
        Yields items (CallsIn items) (expression stop bound n least ts) := fun least _ => ih least
    obtain ⟨hl, hm⟩ := yields_operand inherited_callsIn hS h ho
    refine calls_operators hS hl ?_ hm he
    rintro name o rfl
    obtain ⟨k, hk⟩ := operand_named (leaves_expression bound n)
      (fun _ _ _ _ _ h => expression_named h) ho
    exact ⟨k, ts, h, hk⟩

end Grammar

open Grammar

/-- Every call in the tree of a source is of a name in some pairs of parentheses that stands before
an opening parenthesis, with the offset of the name.  There are no parentheses around the name
exactly if an unquoted name stands at that offset directly before an opening parenthesis. -/
theorem parse_calls {source : Text} {e : Expr} (h : Expr.parse source = .ok e) :
    ∃ tokens, Tokens.ofSource source = .ok tokens ∧
      ∀ name args o, .call name args o ∈ e.walk →
        ∃ n, (∃ ts, ts <:+ tokens.items ∧ Called name o n ts) ∧
          ((∃ ts, ts <:+ tokens.items ∧ CalledDirectly name o ts) ↔ n = 0) := by
  obtain ⟨tokens, ht, he⟩ := parses_iff.mpr h
  have hs : Tokens.ofSource source = .ok tokens := mapError_eq_ok.mp ht
  refine ⟨tokens, hs, fun name args o hcall => ?_⟩
  obtain ⟨n, ts, hts, hc⟩ :=
    (calls_expression _ _ nestingLimit 0 (List.suffix_refl tokens.items) he).1 hcall
  refine ⟨n, ⟨ts, hts, hc⟩, ?_, ?_⟩
  · rintro ⟨-, hts', p, r, rfl⟩
    obtain ⟨p', r', hn⟩ := hc
    obtain ⟨l, v, -, hv, hnext⟩ := hn.token
    -- The name at the offset is one token, so one token comes after it.
    have heq := Tokens.suffix_inj hs hts' (hv.trans hts) rfl
    rcases hnext with ⟨h0, -⟩ | ⟨-, q, r, rfl⟩
    · exact h0
    · cases heq
  · rintro rfl
    exact ⟨ts, hts, hc.direct⟩

theorem parse_calls_grouped :
    let source : Text := "f(((g))(@))"
    ∃ e tokens, Expr.parse source = .ok e ∧ Tokens.ofSource source = .ok tokens ∧
      .call "g" [.atom .current 8] 4 ∈ e.walk ∧
      ∃ n, (∃ ts, ts <:+ tokens.items ∧ Called "g" 4 n ts) ∧
        ((∃ ts, ts <:+ tokens.items ∧ CalledDirectly "g" 4 ts) ↔ n = 0) := by
  intro source
  have he : Expr.parse source = .ok (.call "f" [.call "g" [.atom .current 8] 4] 0) := rfl
  obtain ⟨tokens, ht, hcalls⟩ := parse_calls he
  have hg : .call "g" [.atom .current 8] 4 ∈
      (Expr.call "f" [.call "g" [.atom .current 8] 4] 0).walk :=
    List.mem_cons_of_mem _ List.mem_cons_self
  exact ⟨_, tokens, he, ht, hg, hcalls _ _ _ hg⟩

/-- A quoted name is called, although no unquoted name stands in the source at its offset. -/
theorem quoted_name_called :
    let source : Text := "(\"a\")(b)"
    ∃ e tokens, Expr.parse source = .ok e ∧ Tokens.ofSource source = .ok tokens ∧
      .call "a" [.atom (.field "b") 6] 1 ∈ e.walk ∧
      ⟨.quotedIdentifier "a", 1⟩ ∈ tokens.items ∧
      ¬ ∃ ts, ts <:+ tokens.items ∧ CalledDirectly "a" 1 ts := by
  intro source
  refine ⟨_, _, rfl, rfl, List.mem_cons_self, List.mem_cons_of_mem _ List.mem_cons_self, ?_⟩
  rintro ⟨-, hts, p, rest, rfl⟩
  simp [List.suffix_cons_iff] at hts

end JsonQuery
