/-
What the parser gives, the grammar reads.

* `Grammar.Sound` — a parser of expressions gives only what a reading allows, and consumes tokens;
* `Grammar.sound_expression` — the parser of expressions does so at every level.
-/
import JsonQuery.Proofs.Grammar

namespace JsonQuery
namespace Grammar

open JsonQuery.Parser

/-- What tokens say, wherever they stand. -/
def lexemes (ts : List Token) : List Lexeme :=
  ts.map Token.lexeme

@[simp] theorem lexemes_cons (t : Token) (ts : List Token) :
    lexemes (t :: ts) = t.lexeme :: lexemes ts := rfl

theorem lexemes_append (u r : List Token) : lexemes (u ++ r) = lexemes u ++ lexemes r :=
  List.map_append

theorem power_eq (ts : List Token) : power ts = headPower (lexemes ts) := by
  cases ts <;> rfl

theorem startsWithColon_eq (ts : List Token) :
    startsWithColon ts = startsWith .colon (lexemes ts) := by
  match ts with
  | [] => rfl
  | ⟨.symbol s, _⟩ :: _ => cases s <;> rfl
  | ⟨.identifier _, _⟩ :: _ | ⟨.quotedIdentifier _, _⟩ :: _ | ⟨.rawString _, _⟩ :: _
  | ⟨.literal _, _⟩ :: _ | ⟨.number _, _⟩ :: _ => rfl

theorem startsBracket_eq (ts : List Token) : startsBracket ts = opensIndex (lexemes ts) := by
  match ts with
  | [] => rfl
  | ⟨.symbol s, _⟩ :: _ => cases s <;> rfl
  | ⟨.identifier _, _⟩ :: _ | ⟨.quotedIdentifier _, _⟩ :: _ | ⟨.rawString _, _⟩ :: _
  | ⟨.literal _, _⟩ :: _ | ⟨.number _, _⟩ :: _ => rfl

theorem startsWithComparator_eq (ts : List Token) :
    startsWithComparator ts = compares (lexemes ts) := by
  match ts with
  | [] => rfl
  | ⟨.symbol s, _⟩ :: _ => rfl
  | ⟨.identifier _, _⟩ :: _ | ⟨.quotedIdentifier _, _⟩ :: _ | ⟨.rawString _, _⟩ :: _
  | ⟨.literal _, _⟩ :: _ | ⟨.number _, _⟩ :: _ => rfl

theorem startsWith_lexemes {s : Symbol} {ts : List Token} :
    startsWith s (lexemes ts) = true ↔ ∃ o r, ts = ⟨.symbol s, o⟩ :: r := by
  rw [startsWith_iff]
  constructor
  · rintro ⟨r', h⟩
    match ts with
    | ⟨l, o⟩ :: r =>
      rw [lexemes_cons, List.cons.injEq] at h
      exact ⟨o, r, by rw [← h.1]⟩
  · rintro ⟨o, r, rfl⟩
    exact ⟨_, rfl⟩

theorem startsWith_lexemes_eq_false {s : Symbol} {ts : List Token}
    (h : ∀ o r, ts ≠ ⟨.symbol s, o⟩ :: r) : startsWith s (lexemes ts) = false := by
  rw [← Bool.not_eq_true]
  intro hs
  obtain ⟨o, r, rfl⟩ := startsWith_lexemes.mp hs
  exact h o r rfl

theorem opensItems_lexemes {ts : List Token}
    (h : ∀ o o' r, ts ≠ ⟨.symbol .star, o⟩ :: ⟨.symbol .rightBracket, o'⟩ :: r) :
    opensItems (lexemes ts) = false := by
  match ts with
  | [] => rfl
  | ⟨.symbol s, o⟩ :: ts =>
    by_cases hs : s = .star
    · subst hs
      show startsWith .rightBracket (lexemes ts) = false
      refine startsWith_lexemes_eq_false ?_
      rintro o' r rfl
      exact h o o' r rfl
    · cases s <;> first | rfl | exact absurd rfl hs
  | ⟨.identifier _, _⟩ :: _ | ⟨.quotedIdentifier _, _⟩ :: _ | ⟨.rawString _, _⟩ :: _
  | ⟨.literal _, _⟩ :: _ | ⟨.number _, _⟩ :: _ => rfl

/-! ### Steps one after the other -/

theorem bind_eq_ok {ε α β : Type} {x : Except ε α} {f : α → Except ε β} {b : β} :
    x >>= f = .ok b ↔ ∃ a, x = .ok a ∧ f a = .ok b := by
  cases x with
  | error _ => simp [bind, Except.bind]
  | ok a => simp [bind, Except.bind]

theorem bind_eq_error {ε α β : Type} {x : Except ε α} {f : α → Except ε β} {e : ε} :
    x >>= f = .error e ↔ x = .error e ∨ ∃ a, x = .ok a ∧ f a = .error e := by
  cases x with
  | error _ => simp [bind, Except.bind]
  | ok a => simp [bind, Except.bind]

/-- Where what follows cannot fail, an error is that of what comes before. -/
theorem bind_ok_eq_error {ε α β : Type} {x : Except ε α} {f : α → β} {e : ε} :
    (x >>= fun a => .ok (f a)) = .error e ↔ x = .error e := by
  cases x <;> simp [bind, Except.bind]

theorem map_eq_ok {ε α β : Type} {x : Except ε α} {f : α → β} {b : β} :
    x.map f = .ok b ↔ ∃ a, x = .ok a ∧ f a = b := by
  cases x <;> simp [Except.map]

theorem map_eq_error {ε α β : Type} {x : Except ε α} {f : α → β} {e : ε} :
    x.map f = .error e ↔ x = .error e := by
  cases x <;> simp [Except.map]

theorem mapError_ok {ε ε' α : Type} (f : ε → ε') (a : α) :
    (Except.ok a).mapError f = .ok a := rfl

theorem mapError_error {ε ε' α : Type} (f : ε → ε') (e : ε) :
    (Except.error e : Except ε α).mapError f = .error (f e) := rfl

theorem mapError_eq_error {ε ε' α : Type} {x : Except ε α} {f : ε → ε'} {e' : ε'} :
    x.mapError f = .error e' ↔ ∃ e, x = .error e ∧ f e = e' := by
  cases x <;> simp [mapError_ok, mapError_error]

@[simp] theorem refuse_ne_ok {α : Type} {stop : Nat} {problem : ParseProblem} {context : Text}
    {ts : List Token} {a : α} : refuse stop problem context ts ≠ .ok a := by
  simp [refuse]

theorem expect_eq_ok {stop : Nat} {s : Symbol} {context : Text} {ts rest : List Token} :
    expect stop s context ts = .ok rest ↔ ∃ o, ts = ⟨.symbol s, o⟩ :: rest := by
  unfold expect
  split
  · next s' o r =>
    split
    · next hs => subst hs; simp
    · next hs => simp [hs]
  · simp
  · next h1 _ =>
    constructor
    · exact fun h => absurd h refuse_ne_ok
    · rintro ⟨o, rfl⟩
      exact absurd rfl (h1 s o rest)

theorem sliceParts_sound {stop i : Nat} {s r : Slice} {ts rest : List Token}
    (h : sliceParts stop i s ts = .ok (r, rest)) :
    SliceParts i s (lexemes ts) r (lexemes rest) ∧ rest.length < ts.length := by
  induction ts generalizing i s with
  | nil => rw [sliceParts] at h; exact absurd h refuse_ne_ok
  | cons t ts ih =>
    obtain ⟨l, o⟩ := t
    rw [sliceParts] at h
    rw [lexemes_cons, List.length_cons]
    -- A closing bracket, a colon, a number, or what the parser refuses.
    split at h
    · next hl =>
      cases h
      cases hl
      exact ⟨.close, Nat.lt_succ_self _⟩
    · next hl =>
      cases hl
      split at h
      · exact absurd h refuse_ne_ok
      · next hi =>
        obtain ⟨h1, h2⟩ := ih h
        exact ⟨.colon hi h1, by omega⟩
    · next v hl =>
      cases hl
      split at h
      · exact absurd h refuse_ne_ok
      · next hs =>
        obtain ⟨h1, h2⟩ := ih h
        exact ⟨.number (by simpa using hs) h1, by omega⟩
    · exact absurd h refuse_ne_ok

theorem bracket_sound {stop : Nat} {ts rest : List Token} {a : Atom}
    (ho : startsBracket ts = true) (h : bracket stop ts = .ok (a, rest)) :
    Bracket (lexemes ts) a (lexemes rest) ∧ rest.length < ts.length := by
  rw [startsBracket_eq] at ho
  unfold bracket at h
  split at h
  · next i o ts =>
    split at h
    · next hc =>
      rw [map_eq_ok] at h
      obtain ⟨⟨s, mid⟩, hp, h⟩ := h
      cases h
      obtain ⟨h1, h2⟩ := sliceParts_sound hp
      rw [startsWithColon_eq] at hc
      exact ⟨.slice hc h1, h2⟩
    · rw [map_eq_ok] at h
      obtain ⟨mid, hx, h⟩ := h
      cases h
      obtain ⟨o', rfl⟩ := expect_eq_ok.mp hx
      exact ⟨.index, by simp only [List.length_cons]; omega⟩
  · next hn =>
    rw [map_eq_ok] at h
    obtain ⟨⟨s, mid⟩, hp, h⟩ := h
    cases h
    obtain ⟨h1, h2⟩ := sliceParts_sound hp
    refine ⟨.slice ?_ h1, h2⟩
    match ts, ho with
    | ⟨.symbol .colon, _⟩ :: _, _ => rfl
    | ⟨.number i, o⟩ :: ts, _ => exact absurd rfl (hn i o ts)

theorem bracket_atom {ts rest : List Lexeme} {a : Atom} (h : Bracket ts a rest)
    (hn : ∀ s, a ≠ .slice s) : ∃ i, a = .index i := by
  cases h with
  | index => exact ⟨_, rfl⟩
  | slice => exact absurd rfl (hn _)

/-! ### Productions -/

theorem bare_indexed (left : Expr) (a : Atom) (o : Nat) :
    (if isIdentity left then Expr.atom a o else .binary .step left (.atom a o) o).bare =
      indexed left.bare a := by
  unfold indexed
  rw [Expr.isIdentity_bare]
  split <;> simp only [Expr.bare]

/-- A parser of expressions gives only what a reading allows, and consumes tokens. -/
def Sound (bound : Nat) (sub : Nat → Step Expr) (S : Reading) : Prop :=
  ∀ ⦃least ts e rest⦄, ts.length ≤ bound → sub least ts = .ok (e, rest) →
    S least (lexemes ts) e.bare (lexemes rest) ∧ rest.length < ts.length

section
variable {stop bound : Nat} {sub : Nat → Step Expr} {S : Reading} (hS : Sound bound sub S)
include hS

theorem elements_sound {fuel : Nat} {ts rest : List Token} {es : List Expr}
    (hb : ts.length ≤ bound) (h : elements stop sub fuel ts = .ok (es, rest)) :
    Elements S (lexemes ts) (Expr.bareList es) (lexemes rest) ∧ rest.length < ts.length := by
  induction fuel generalizing ts es with
  | zero => exact absurd h refuse_ne_ok
  | succ fuel ih =>
    unfold elements at h
    split at h
    · exact absurd h refuse_ne_ok
    · rw [bind_eq_ok] at h
      obtain ⟨⟨e, mid⟩, he, h⟩ := h
      obtain ⟨hr, hlt⟩ := hS hb he
      dsimp only at h
      split at h
      · cases h
        rw [List.length_cons] at hlt
        exact ⟨.last hr, by omega⟩
      · rw [bind_eq_ok] at h
        obtain ⟨⟨es, mid⟩, hes, h⟩ := h
        cases h
        rw [List.length_cons] at hlt
        obtain ⟨h1, h2⟩ := ih (by omega) hes
        exact ⟨.more hr h1, by omega⟩
      · exact absurd h refuse_ne_ok
      · exact absurd h refuse_ne_ok

theorem pair_sound {ts rest : List Token} {p : Text × Expr} (hb : ts.length ≤ bound)
    (h : pair stop sub ts = .ok (p, rest)) :
    ∃ t ts', lexemes ts = t :: .symbol .colon :: ts' ∧ key? t = some p.1 ∧
      S 0 ts' p.2.bare (lexemes rest) ∧ rest.length < ts.length := by
  cases ts with
  | nil => exact absurd h refuse_ne_ok
  | cons t ts =>
    rw [pair] at h
    split at h
    · exact absurd h refuse_ne_ok
    · next key hk =>
      simp only [bind_eq_ok, Prod.exists] at h
      obtain ⟨ts', hc, e, mid, he, h⟩ := h
      cases h
      obtain ⟨o, rfl⟩ := expect_eq_ok.mp hc
      simp only [List.length_cons] at hb
      obtain ⟨hr, hlt⟩ := hS (by omega) he
      exact ⟨_, _, rfl, hk, hr, by simp only [List.length_cons]; omega⟩

theorem pairs_sound {fuel : Nat} {ts rest : List Token} {ps : List (Text × Expr)}
    (hb : ts.length ≤ bound) (h : pairs stop sub fuel ts = .ok (ps, rest)) :
    Pairs S (lexemes ts) (Expr.barePairs ps) (lexemes rest) ∧ rest.length < ts.length := by
  induction fuel generalizing ts ps with
  | zero => exact absurd h refuse_ne_ok
  | succ fuel ih =>
    rw [pairs, bind_eq_ok] at h
    obtain ⟨⟨⟨key, e⟩, mid⟩, hp, h⟩ := h
    obtain ⟨t, ts', hts, hk, hr, hlt⟩ := pair_sound hS hb hp
    rw [hts]
    dsimp only at h
    split at h
    · cases h
      rw [List.length_cons] at hlt
      exact ⟨.last hk hr, by omega⟩
    · rw [bind_eq_ok] at h
      obtain ⟨⟨ps, mid⟩, hps, h⟩ := h
      cases h
      rw [List.length_cons] at hlt
      obtain ⟨h1, h2⟩ := ih (by omega) hps
      exact ⟨.more hk hr h1, by omega⟩
    · exact absurd h refuse_ne_ok
    · exact absurd h refuse_ne_ok

theorem arguments_sound {name : Text} {fuel : Nat} {ts rest : List Token} {es : List Expr}
    (hb : ts.length ≤ bound) (h : arguments stop sub name fuel ts = .ok (es, rest)) :
    Arguments S (lexemes ts) (Expr.bareList es) (lexemes rest) ∧ rest.length < ts.length := by
  induction fuel generalizing ts es with
  | zero => exact absurd h refuse_ne_ok
  | succ fuel ih =>
    unfold arguments at h
    split at h
    · cases h
      exact ⟨.none, Nat.lt_succ_self _⟩
    · exact absurd h refuse_ne_ok
    · rw [bind_eq_ok] at h
      obtain ⟨⟨e, mid⟩, he, h⟩ := h
      obtain ⟨hr, hlt⟩ := hS hb he
      dsimp only at h
      split at h
      · cases h
        rw [List.length_cons] at hlt
        exact ⟨.last hr, by omega⟩
      · exact absurd h refuse_ne_ok
      · next o mid hn =>
        rw [bind_eq_ok] at h
        obtain ⟨⟨es, mid'⟩, hes, h⟩ := h
        cases h
        rw [List.length_cons] at hlt
        obtain ⟨h1, h2⟩ := ih (by omega) hes
        -- The parser refuses a comma before the closing parenthesis.
        have hc : startsWith .rightParen (lexemes mid) = false := startsWith_lexemes_eq_false hn
        exact ⟨.more hr hc h1, by omega⟩
      · exact absurd h refuse_ne_ok

theorem afterDot_sound {least : Nat} {ts rest : List Token} {e : Expr}
    (hb : ts.length ≤ bound) (h : afterDot stop bound sub least ts = .ok (e, rest)) :
    AfterDot S least (lexemes ts) e.bare (lexemes rest) ∧ rest.length < ts.length := by
  unfold afterDot at h
  split at h
  · obtain ⟨hr, hlt⟩ := hS hb h
    exact ⟨.expr rfl hr, hlt⟩
  · obtain ⟨hr, hlt⟩ := hS hb h
    exact ⟨.expr rfl hr, hlt⟩
  · obtain ⟨hr, hlt⟩ := hS hb h
    exact ⟨.expr rfl hr, hlt⟩
  · rw [multiList, bind_eq_ok] at h
    obtain ⟨⟨es, mid⟩, hes, h⟩ := h
    cases h
    rw [List.length_cons] at hb
    obtain ⟨hr, hlt⟩ := elements_sound hS (by omega) hes
    exact ⟨.list hr, by rw [List.length_cons]; omega⟩
  · rw [multiHash, bind_eq_ok] at h
    obtain ⟨⟨ps, mid⟩, hps, h⟩ := h
    cases h
    rw [List.length_cons] at hb
    obtain ⟨hr, hlt⟩ := pairs_sound hS (by omega) hps
    exact ⟨.hash hr, by rw [List.length_cons]; omega⟩
  · exact absurd h refuse_ne_ok

theorem projected_sound {least : Nat} {ts rest : List Token} {e : Expr}
    (hb : ts.length ≤ bound) (h : projected stop bound sub least ts = .ok (e, rest)) :
    Projected S least (lexemes ts) e.bare (lexemes rest) ∧ rest.length ≤ ts.length := by
  unfold projected at h
  split at h
  · next hp =>
    cases h
    rw [power_eq] at hp
    exact ⟨.stop hp, Nat.le_refl _⟩
  · split at h
    · obtain ⟨hr, hlt⟩ := hS hb h
      exact ⟨.bracket hr, Nat.le_of_lt hlt⟩
    · obtain ⟨hr, hlt⟩ := hS hb h
      exact ⟨.filter hr, Nat.le_of_lt hlt⟩
    · rw [List.length_cons] at hb
      obtain ⟨hr, hlt⟩ := afterDot_sound hS (by omega) h
      exact ⟨.dot hr, by rw [List.length_cons]; omega⟩
    · exact absurd h refuse_ne_ok

theorem bracketed_sound {left : Expr} {o : Nat} {ts rest : List Token} {e : Expr}
    (hb : ts.length ≤ bound) (ho : startsBracket ts = true)
    (h : bracketed stop bound sub left o ts = .ok (e, rest)) :
    Bracketed S left.bare (lexemes ts) e.bare (lexemes rest) ∧ rest.length < ts.length := by
  simp only [bracketed, bind_eq_ok, Prod.exists] at h
  obtain ⟨a, mid, hbr, h⟩ := h
  obtain ⟨hr, hlt⟩ := bracket_sound ho hbr
  split at h
  · simp only [bind_eq_ok, Prod.exists] at h
    obtain ⟨right, mid', hp, h⟩ := h
    cases h
    obtain ⟨h1, h2⟩ := projected_sound hS (by omega) hp
    refine ⟨?_, by omega⟩
    rw [Expr.bare, bare_indexed]
    exact .slice hr h1
  · next hn =>
    cases h
    refine ⟨?_, hlt⟩
    rw [bare_indexed]
    obtain ⟨i, rfl⟩ := bracket_atom hr hn
    exact .index hr

theorem filtered_sound {left : Expr} {o : Nat} {ts rest : List Token} {e : Expr}
    (hb : ts.length ≤ bound) (h : filtered stop bound sub left o ts = .ok (e, rest)) :
    Filtered S left.bare (lexemes ts) e.bare (lexemes rest) ∧ rest.length < ts.length := by
  simp only [filtered, bind_eq_ok, Prod.exists] at h
  obtain ⟨p, mid, he, mid', hc, h⟩ := h
  obtain ⟨o', rfl⟩ := expect_eq_ok.mp hc
  obtain ⟨hr, hlt⟩ := hS hb he
  rw [List.length_cons] at hlt
  split at h
  · cases h
    -- A flattening ends the projection, so its right side is left out in the grammar too.
    exact ⟨.intro hr (.stop (Nat.lt_succ_self 9)), by omega⟩
  · simp only [bind_eq_ok, Prod.exists] at h
    obtain ⟨right, mid, hp, h⟩ := h
    cases h
    obtain ⟨h1, h2⟩ := projected_sound hS (by omega) hp
    exact ⟨.intro hr h1, by omega⟩

theorem flattened_sound {left : Expr} {o : Nat} {ts rest : List Token} {e : Expr}
    (hb : ts.length ≤ bound) (h : flattened stop bound sub left o ts = .ok (e, rest)) :
    ∃ right, Projected S (Lexeme.power (.symbol .flatten)) (lexemes ts) right (lexemes rest) ∧
      e.bare = .binary .eachItem (.unary .flatten left.bare 0) right 0 ∧
      rest.length ≤ ts.length := by
  rw [flattened, bind_eq_ok] at h
  obtain ⟨⟨right, mid⟩, hp, h⟩ := h
  cases h
  obtain ⟨hr, hlt⟩ := projected_sound hS hb hp
  exact ⟨_, hr, by simp only [Expr.bare], hlt⟩

theorem infixed_sound {op : BinaryOp} {least o : Nat} {left e : Expr} {ts rest : List Token}
    (hb : ts.length ≤ bound) (h : infixed sub op least left o ts = .ok (e, rest)) :
    ∃ right, S least (lexemes ts) right (lexemes rest) ∧
      e.bare = .binary op left.bare right 0 ∧ rest.length ≤ ts.length := by
  simp only [infixed, bind_eq_ok, Prod.exists] at h
  obtain ⟨right, mid, he, h⟩ := h
  cases h
  obtain ⟨hr, hlt⟩ := hS hb he
  exact ⟨_, hr, by simp only [Expr.bare], Nat.le_of_lt hlt⟩

theorem compared_sound {c : Comparator} {least o : Nat} {left e : Expr} {ts rest : List Token}
    (hb : ts.length ≤ bound) (h : compared stop sub c least left o ts = .ok (e, rest)) :
    ∃ right, S least (lexemes ts) right (lexemes rest) ∧
      e.bare = .binary (.compare c) left.bare right 0 ∧ compares (lexemes rest) = false ∧
      rest.length ≤ ts.length := by
  simp only [compared, bind_eq_ok, Prod.exists] at h
  obtain ⟨right, mid, he, h⟩ := h
  obtain ⟨hr, hlt⟩ := hS hb he
  split at h
  · exact absurd h refuse_ne_ok
  · next hn =>
    cases h
    rw [startsWithComparator_eq, Bool.not_eq_true] at hn
    exact ⟨_, hr, by simp only [Expr.bare], hn, Nat.le_of_lt hlt⟩

theorem operand_sound {ts rest : List Token} {e : Expr} (hb : ts.length ≤ bound)
    (h : operand stop bound sub ts = .ok (e, rest)) :
    Operand S (lexemes ts) e.bare (lexemes rest) ∧ rest.length < ts.length := by
  cases ts with
  | nil => exact absurd h refuse_ne_ok
  | cons t ts =>
    obtain ⟨l, o⟩ := t
    rw [List.length_cons] at hb ⊢
    rw [lexemes_cons]
    unfold operand at h
    dsimp only at h
    -- One case for each kind of lexeme that the parser looks for, in its order.
    split at h
    · cases h
      exact ⟨.identifier, Nat.lt_succ_self _⟩
    · split at h
      · exact absurd h refuse_ne_ok
      · next hn =>
        cases h
        exact ⟨.quotedIdentifier (startsWith_lexemes_eq_false hn), Nat.lt_succ_self _⟩
    · cases h
      exact ⟨.rawString, Nat.lt_succ_self _⟩
    · cases h
      exact ⟨.literal, Nat.lt_succ_self _⟩
    · cases h
      exact ⟨.current, Nat.lt_succ_self _⟩
    · split at h
      · -- The parser leaves the right side out before a closing bracket, which binds nothing.
        cases h
        exact ⟨.values (.stop (Nat.zero_lt_succ _)), Nat.lt_succ_self _⟩
      · simp only [bind_eq_ok, Prod.exists] at h
        obtain ⟨right, mid, hp, h⟩ := h
        cases h
        obtain ⟨hr, hlt⟩ := projected_sound hS (by omega) hp
        exact ⟨.values hr, by omega⟩
    · obtain ⟨hr, hlt⟩ := filtered_sound hS (by omega) h
      exact ⟨.filter hr, by omega⟩
    · obtain ⟨right, hr, he, hlt⟩ := flattened_sound hS (by omega) h
      rw [he]
      exact ⟨.flatten hr, by omega⟩
    · simp only [bind_eq_ok, Prod.exists] at h
      obtain ⟨e, mid, he, h⟩ := h
      cases h
      obtain ⟨hr, hlt⟩ := hS (by omega) he
      exact ⟨.not hr, by omega⟩
    · simp only [bind_eq_ok, Prod.exists] at h
      obtain ⟨e, mid, he, mid', hc, h⟩ := h
      cases h
      obtain ⟨o', rfl⟩ := expect_eq_ok.mp hc
      obtain ⟨hr, hlt⟩ := hS (by omega) he
      rw [List.length_cons] at hlt
      exact ⟨.group hr, by omega⟩
    · simp only [multiHash, bind_eq_ok, Prod.exists] at h
      obtain ⟨ps, mid, hps, h⟩ := h
      cases h
      obtain ⟨hr, hlt⟩ := pairs_sound hS (by omega) hps
      exact ⟨.hash hr, by omega⟩
    · simp only [bind_eq_ok, Prod.exists] at h
      obtain ⟨e, mid, he, h⟩ := h
      cases h
      obtain ⟨hr, hlt⟩ := hS (by omega) he
      exact ⟨.reference hr, by omega⟩
    · split at h
      · next ho =>
        obtain ⟨hr, hlt⟩ := bracketed_sound hS (by omega) ho h
        rw [startsBracket_eq] at ho
        exact ⟨.bracket ho hr, by omega⟩
      · next ho =>
        -- No index and no slice, so all items or a list.
        rw [Bool.not_eq_true, startsBracket_eq] at ho
        split at h
        · simp only [bind_eq_ok, Prod.exists] at h
          obtain ⟨right, mid, hp, h⟩ := h
          cases h
          simp only [List.length_cons] at hb ⊢
          obtain ⟨hr, hlt⟩ := projected_sound hS (by omega) hp
          exact ⟨.items hr, by omega⟩
        · next hn =>
          simp only [multiList, bind_eq_ok, Prod.exists] at h
          obtain ⟨es, mid, hes, h⟩ := h
          cases h
          obtain ⟨hr, hlt⟩ := elements_sound hS (by omega) hes
          exact ⟨.list ho (opensItems_lexemes hn) hr, by omega⟩
    · exact absurd h refuse_ne_ok

theorem extend_sound {left e : Expr} {t : Token} {ts rest : List Token}
    (hb : ts.length ≤ bound) (h : extend stop bound sub left t ts = .ok (e, rest)) :
    Extension S left.bare (t.lexeme :: lexemes ts) e.bare (lexemes rest) ∧
      rest.length ≤ ts.length := by
  obtain ⟨l, o⟩ := t
  unfold extend at h
  dsimp only at h
  -- A dot, a bracket, a filter, a flattening, three infixes, a call and the comparisons.
  split at h
  · split at h
    · simp only [bind_eq_ok, Prod.exists] at h
      obtain ⟨right, mid, hp, h⟩ := h
      cases h
      simp only [List.length_cons] at hb ⊢
      obtain ⟨hr, hlt⟩ := projected_sound hS (by omega) hp
      exact ⟨.values hr, by omega⟩
    · next hn =>
      simp only [bind_eq_ok, Prod.exists] at h
      obtain ⟨right, mid, hp, h⟩ := h
      cases h
      obtain ⟨hr, hlt⟩ := afterDot_sound hS hb hp
      exact ⟨.step (startsWith_lexemes_eq_false hn) hr, by omega⟩
  · split at h
    · next ho =>
      obtain ⟨hr, hlt⟩ := bracketed_sound hS hb ho h
      rw [startsBracket_eq] at ho
      exact ⟨.bracket ho hr, by omega⟩
    · simp only [bind_eq_ok, Prod.exists] at h
      obtain ⟨ts', hc, ts'', hc', right, mid, hp, h⟩ := h
      cases h
      obtain ⟨o', rfl⟩ := expect_eq_ok.mp hc
      obtain ⟨o', rfl⟩ := expect_eq_ok.mp hc'
      simp only [List.length_cons] at hb ⊢
      obtain ⟨hr, hlt⟩ := projected_sound hS (by omega) hp
      exact ⟨.items hr, by omega⟩
  · obtain ⟨hr, hlt⟩ := filtered_sound hS hb h
    exact ⟨.filter hr, by omega⟩
  · obtain ⟨right, hr, he, hlt⟩ := flattened_sound hS hb h
    rw [he]
    exact ⟨.flatten hr, by omega⟩
  · obtain ⟨right, hr, he, hlt⟩ := infixed_sound hS hb h
    rw [he]
    exact ⟨.infixed rfl hr, hlt⟩
  · obtain ⟨right, hr, he, hlt⟩ := infixed_sound hS hb h
    rw [he]
    exact ⟨.infixed rfl hr, hlt⟩
  · obtain ⟨right, hr, he, hlt⟩ := infixed_sound hS hb h
    rw [he]
    exact ⟨.infixed rfl hr, hlt⟩
  · split at h
    · simp only [bind_eq_ok, Prod.exists] at h
      obtain ⟨args, mid, ha, h⟩ := h
      cases h
      obtain ⟨hr, hlt⟩ := arguments_sound hS hb ha
      exact ⟨.call hr, by omega⟩
    · exact absurd h refuse_ne_ok
  · split at h
    · next hc =>
      obtain ⟨right, hr, he, hn, hlt⟩ := compared_sound hS hb h
      rw [he]
      exact ⟨.compare hc hr hn, hlt⟩
    · exact absurd h refuse_ne_ok
  · exact absurd h refuse_ne_ok

theorem operators_sound {least fuel : Nat} {left e : Expr} {ts rest : List Token}
    (hb : ts.length ≤ bound) (hf : ts.length ≤ fuel)
    (h : operators stop bound sub least fuel left ts = .ok (e, rest)) :
    Operators S least left.bare (lexemes ts) e.bare (lexemes rest) ∧
      rest.length ≤ ts.length := by
  -- Each operator consumes its own token, so the bound lasts as long as there are tokens.
  induction fuel generalizing left ts with
  | zero =>
    obtain rfl : ts = [] := List.length_eq_zero_iff.mp (Nat.le_zero.mp hf)
    cases h
    exact ⟨.stop (Nat.zero_le _), Nat.le_refl _⟩
  | succ fuel ih =>
    cases ts with
    | nil =>
      cases h
      exact ⟨.stop (Nat.zero_le _), Nat.le_refl _⟩
    | cons t ts =>
      rw [operators] at h
      rw [List.length_cons] at hb hf ⊢
      split at h
      · next hp =>
        simp only [bind_eq_ok, Prod.exists] at h
        obtain ⟨left', mid, hx, h⟩ := h
        obtain ⟨hr, hlt⟩ := extend_sound hS (by omega) hx
        obtain ⟨hr', hlt'⟩ := ih (by omega) (by omega) h
        exact ⟨.more hp hr hr', by omega⟩
      · next hp =>
        cases h
        exact ⟨.stop (Nat.le_of_not_lt hp), Nat.le_refl _⟩

end

/-- The parser gives only what the grammar reads at the same level. -/
theorem sound_expression (stop bound n : Nat) :
    Sound bound (expression stop bound n) (Reads n) := by
  -- What is nested in an expression is one level down, so the productions are sound below it.
  induction n with
  | zero =>
    intro least ts e rest _ h
    cases h
  | succ n ih =>
    intro least ts e rest hb h
    simp only [expression, bind_eq_ok, Prod.exists] at h
    obtain ⟨left, mid, ho, h⟩ := h
    obtain ⟨hr, hlt⟩ := operand_sound ih hb ho
    obtain ⟨hr', hlt'⟩ := operators_sound ih (by omega) (by omega) h
    exact ⟨⟨_, _, hr, hr'⟩, by omega⟩

end Grammar
end JsonQuery
