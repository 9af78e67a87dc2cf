/-
Where the parser fails.

Each production passes the blame on from its parts, so that the parser of expressions blames the
earliest token at which it can fail.

* `Grammar.Earliest` — a parser of expressions at a level does so;
* `Grammar.blames_expression` — the parser of expressions does so at every level.
-/
import JsonQuery.Proofs.Grammar.Blame

namespace JsonQuery
namespace Grammar

open JsonQuery.Parser

/-! ### Productions -/

theorem reads_current {n least : Nat} {ls : List Lexeme} (h : headPower ls ≤ least) :
    Reads (n + 1) least (.symbol .current :: ls) (.atom .current 0) ls :=
  ⟨_, ls, .current, .stop h⟩

theorem reads_followsDot {t : Lexeme} (ht : followsDot t = true) (least : Nat) :
    ∃ e, Reads 1 least [t] e [] := by
  match t, ht with
  | .identifier name, _ => exact ⟨_, _, _, .identifier, .stop (Nat.zero_le _)⟩
  | .quotedIdentifier name, _ => exact ⟨_, _, _, .quotedIdentifier rfl, .stop (Nat.zero_le _)⟩
  | .symbol .star, _ => exact ⟨_, _, _, .values (.stop (Nat.zero_lt_succ 9)), .stop (Nat.zero_le _)⟩

/-- An expression starts with an opening bracket, and with that of a filter. -/
theorem reads_bracket (least : Nat) :
    (∃ ls e rest, Reads 1 least (.symbol .leftBracket :: ls) e rest) ∧
      ∃ ls e rest, Reads 2 least (.symbol .filter :: ls) e rest := by
  constructor
  · exact ⟨[.symbol .star, .symbol .rightBracket], _, [], _, _,
      .items (.stop (Nat.zero_lt_succ 9)), .stop (Nat.zero_le _)⟩
  · exact ⟨[.symbol .current, .symbol .rightBracket], _, [], _, _,
      .filter (.intro (reads_current (Nat.le_refl 0)) (.stop (Nat.zero_lt_succ 9))),
      .stop (Nat.zero_le _)⟩

theorem not_reads_nil {n least : Nat} {e : Expr} {rest : List Lexeme} :
    ¬ Reads n least [] e rest := by
  intro h
  obtain ⟨t, u, hl, -⟩ := local_reads n h
  cases hl

theorem not_reads_closer {n least : Nat} {s : Symbol} {e : Expr} {ls rest : List Lexeme}
    (hs : isCloser s = true) : ¬ Reads n least (.symbol s :: ls) e rest := by
  intro h
  have := reads_opens hs h
  simp [startsWith] at this

/-- No expression starts as an index or a slice does. -/
theorem reads_opensIndex {n least : Nat} {ls rest : List Lexeme} {e : Expr}
    (h : Reads n least ls e rest) : opensIndex ls = false := by
  cases n with
  | zero => exact h.elim
  | succ n =>
    obtain ⟨_, _, ho, -⟩ := h
    cases ho <;> rfl

theorem bracketed_opensIndex {S : Reading} {left e : Expr} {ls rest : List Lexeme}
    (h : Bracketed S left ls e rest) : opensIndex ls = true := by
  have opens : ∀ {a mid}, Bracket ls a mid → opensIndex ls = true := by
    intro a mid ha
    cases ha with
    | index => rfl
    | slice ho =>
      match ls, ho with
      | .number _ :: _, _ => rfl
      | .symbol _ :: _, ho => exact ho
  cases h with
  | index ha => exact opens ha
  | slice ha => exact opens ha

theorem opensItems_eq_false {ls : List Lexeme} (h : startsWith .star ls = false) :
    opensItems ls = false := by
  match ls with
  | [] => rfl
  | .symbol s :: _ => cases s <;> first | rfl | cases h
  | .identifier _ :: _ | .quotedIdentifier _ :: _ | .rawString _ :: _ | .literal _ :: _
  | .number _ :: _ => rfl

theorem comparator?_ne {s : Symbol} {op : BinaryOp} {c : Comparator} (h : infixOp? s = some op) :
    comparator? s ≠ some c := by
  intro hc
  cases s <;> simp [infixOp?, comparator?] at h hc

/-- A list of elements starts with an expression. -/
theorem elements_reads {S : Reading} {ls rest : List Lexeme} {es : List Expr}
    (h : Elements S ls es rest) : ∃ e mid, S 0 ls e mid := by
  cases h with
  | last he => exact ⟨_, _, he⟩
  | more he => exact ⟨_, _, he⟩

/-- After its first element a list is closed or goes on after a comma. -/
theorem elements_next {n m : Nat} {ls mid rest : List Lexeme} {e : Expr} {es : List Expr}
    (he : Reads n 0 ls e mid) (h : Elements (Reads m) ls es rest) :
    mid = .symbol .rightBracket :: rest ∨
      ∃ ls' es', mid = .symbol .comma :: ls' ∧ Elements (Reads m) ls' es' rest := by
  cases h with
  | last he' => exact .inl (reads_unique he he').2
  | more he' h => exact .inr ⟨_, _, (reads_unique he he').2, h⟩

/-- After the colon of its first pair a hash has an expression, and is closed or goes on. -/
theorem pairs_next {n m : Nat} {t : Lexeme} {ls mid rest : List Lexeme} {e : Expr}
    {ps : List (Text × Expr)} (he : Reads n 0 ls e mid)
    (h : Pairs (Reads m) (t :: .symbol .colon :: ls) ps rest) :
    mid = .symbol .rightBrace :: rest ∨
      ∃ ls' ps', mid = .symbol .comma :: ls' ∧ Pairs (Reads m) ls' ps' rest := by
  cases h with
  | last _ he' => exact .inl (reads_unique he he').2
  | more _ he' h => exact .inr ⟨_, _, (reads_unique he he').2, h⟩

/-- After its first argument a call is closed or goes on after a comma. -/
theorem arguments_next {n m : Nat} {ls mid rest : List Lexeme} {e : Expr} {es : List Expr}
    (he : Reads n 0 ls e mid) (h : Arguments (Reads m) ls es rest) :
    mid = .symbol .rightParen :: rest ∨
      ∃ ls' es', mid = .symbol .comma :: ls' ∧ startsWith .rightParen ls' = false ∧
        Arguments (Reads m) ls' es' rest := by
  cases h with
  | none => exact absurd he (not_reads_closer rfl)
  | last he' => exact .inl (reads_unique he he').2
  | more he' hn h => exact .inr ⟨_, _, (reads_unique he he').2, hn, h⟩

/-- The errors of the parser of expressions at a level point to the earliest token; whatever can
be completed can be completed with one level more. -/
def Earliest (stop bound n : Nat) : Prop :=
  ∀ ⦃least ts err⦄, ts.length ≤ bound → expression stop bound n least ts = .error err →
    Blames stop (fun m => Reads m least) (Reads (n + 1) least) ts err

section
variable {stop bound n : Nat} {ts : List Token} {err : ParseError}

/-- The tokens that an expression consumes are read as it before whatever gives way. -/
theorem expression_prefix {least : Nat} {mid : List Token} {e : Expr} (hb : ts.length ≤ bound)
    (h : expression stop bound n least ts = .ok (e, mid)) :
    ∃ w, ts = w ++ mid ∧
      ∀ ⦃ls⦄, GivesWay (lexemes mid) ls → Reads n least (lexemes w ++ ls) e.bare ls := by
  obtain ⟨t, u, hl, hu⟩ := local_reads n (sound_expression stop bound n hb h).1
  obtain ⟨w, rfl, hw⟩ := exists_prefix (leaves_expression bound n least ts h) hl
  refine ⟨w, rfl, ?_⟩
  rw [hw]
  exact hu

/-- The tokens of a pair, as the lexemes that the grammar sees before whatever gives way. -/
theorem pair_prefix {key : Text} {e : Expr} {mid : List Token} (hb : ts.length ≤ bound)
    (h : pair stop (expression stop bound n) ts = .ok ((key, e), mid)) :
    ∃ w t u, ts = w ++ mid ∧ lexemes w = t :: .symbol .colon :: u ∧ key? t = some key ∧
      ∀ ⦃ls⦄, GivesWay (lexemes mid) ls → Reads n 0 (u ++ ls) e.bare ls := by
  obtain ⟨t, ts', hts, hk, hr, -⟩ := pair_sound (sound_expression stop bound n) hb h
  obtain ⟨t', u, rfl, hu⟩ := local_reads n hr
  obtain ⟨w, rfl, hw⟩ := exists_prefix (u := t :: .symbol .colon :: t' :: u)
    (leaves_pair (leaves_expression bound n) h) hts
  exact ⟨w, t, t' :: u, rfl, hw, hk, hu⟩

/-- The tokens that an operand consumes, likewise. -/
theorem operand_prefix {mid : List Token} {e : Expr} (hb : ts.length ≤ bound)
    (h : operand stop bound (expression stop bound n) ts = .ok (e, mid)) :
    ∃ w, ts = w ++ mid ∧
      ∀ ⦃ls⦄, GivesWay (lexemes mid) ls → Operand (Reads n) (lexemes w ++ ls) e.bare ls := by
  obtain ⟨t, u, hl, hu⟩ := operand_append (local_reads n)
    (operand_sound (sound_expression stop bound n) hb h).1
  obtain ⟨w, rfl, hw⟩ := exists_prefix (leaves_operand (leaves_expression bound n) h) hl
  refine ⟨w, rfl, ?_⟩
  rw [hw]
  exact hu

/-- The tokens that an operator consumes with its right side, likewise. -/
theorem extend_prefix {left e : Expr} {t : Token} {mid : List Token} (hb : ts.length ≤ bound)
    (h : extend stop bound (expression stop bound n) left t ts = .ok (e, mid)) :
    ∃ w, ts = w ++ mid ∧ ∀ ⦃ls⦄, GivesWay (lexemes mid) ls →
      Extension (Reads n) left.bare (t.lexeme :: (lexemes w ++ ls)) e.bare ls := by
  obtain ⟨t', u, hl, hu⟩ := extension_append (local_reads n)
    (extend_sound (sound_expression stop bound n) hb h).1
  obtain ⟨rfl, hl'⟩ := List.cons.inj hl
  obtain ⟨w, rfl, hw⟩ := exists_prefix (u := u) (leaves_extend (leaves_expression bound n) h) hl'
  refine ⟨w, rfl, ?_⟩
  rw [hw]
  exact hu

variable (hE : Earliest stop bound n)
include hE

theorem blames_elements {fuel : Nat} (hb : ts.length ≤ bound) (hf : ts.length ≤ fuel)
    (h : elements stop (expression stop bound n) fuel ts = .error err) :
    Blames stop (fun m => Elements (Reads m)) (Elements (Reads (n + 1))) ts err := by
  have opening : Completable (Elements (Reads (n + 1))) [] :=
    ⟨[.symbol .current, .symbol .rightBracket], _, rfl, .last (reads_current (Nat.le_refl 0))⟩
  induction fuel generalizing ts with
  | zero =>
    obtain rfl : ts = [] := List.length_eq_zero_iff.mp (Nat.le_zero.mp hf)
    refine .here [] (pointsTo_refuse h (.inl rfl)) ?_ opening
    intro m ls hl es rest he
    obtain rfl := List.head?_eq_none_iff.mp hl
    obtain ⟨_, _, he⟩ := elements_reads he
    exact not_reads_nil he
  | succ fuel ih =>
    unfold elements at h
    split at h
    · refine .here [] (pointsTo_refuse h (.inl rfl)) ?_ opening
      intro m ls hl es rest he
      obtain ⟨ls, rfl⟩ := List.head?_eq_some_iff.mp hl
      obtain ⟨_, _, he⟩ := elements_reads he
      exact not_reads_closer rfl he
    · rw [bind_eq_error] at h
      rcases h with h | ⟨⟨e, mid⟩, he, h⟩
      · refine (hE hb h).lift [] ?_ ?_
        · intro m ls _ es rest he
          exact ⟨m, elements_reads he⟩
        · intro ls e _ he
          exact ⟨_, [e], .append ls rfl, .last (reads_append he rfl)⟩
      · obtain ⟨w, rfl, hw⟩ := expression_prefix hb he
        have closing : Completable (Elements (Reads (n + 1))) (lexemes w) :=
          ⟨[.symbol .rightBracket], [e.bare], rfl, .last (reads_succ (hw (.inr rfl)))⟩
        have behind : ∀ ⦃m ls es rest⦄, GivesWay (lexemes mid) ls →
            Elements (Reads m) (lexemes w ++ ls) es rest →
            startsWith .rightBracket ls = true ∨ startsWith .comma ls = true := by
          intro m ls es rest hg he
          obtain rfl | ⟨_, _, rfl, -⟩ := elements_next (hw hg) he
          · exact .inl rfl
          · exact .inr rfl
        rw [List.length_append] at hb hf
        dsimp only at h
        -- A closing bracket, a comma, the end, or what the parser refuses.
        split at h
        · cases h
        · next o mid =>
          rw [bind_ok_eq_error] at h
          rw [List.length_cons] at hb hf
          refine (ih (by omega) (by omega) h).lift_cons w _ ?_ ?_
          · intro m ls es rest he
            obtain h | ⟨ls', es', h, he⟩ := elements_next (hw (givesWay_cons _ _ _)) he
            · cases h
            · cases h
              exact ⟨m, es', rest, he⟩
          · intro ls es he
            exact ⟨ls, e.bare :: es, .refl ls, .more (reads_succ (hw (givesWay_cons _ _ _))) he⟩
        · exact .unclosed w (pointsTo_refuse h (.inr trivial)) rfl rfl behind closing
        · next h1 h2 _ =>
          exact .unclosed w (pointsTo_refuse h (.inl rfl)) (startsWith_lexemes_eq_false h1)
            (startsWith_lexemes_eq_false h2) behind closing

theorem blames_pair (hb : ts.length ≤ bound)
    (h : pair stop (expression stop bound n) ts = .error err) :
    Blames stop (fun m => Pairs (Reads m)) (Pairs (Reads (n + 1))) ts err := by
  have value : ∀ {t key}, key? t = some key →
      Pairs (Reads (n + 1)) [t, .symbol .colon, .symbol .current, .symbol .rightBrace]
        [(key, .atom .current 0)] [] :=
    fun hk => .last hk (reads_current (Nat.le_refl 0))
  have opening : Completable (Pairs (Reads (n + 1))) [] :=
    ⟨[.identifier [], _, _, _], _, rfl, value rfl⟩
  cases ts with
  | nil =>
    refine .here [] (pointsTo_refuse h (.inr trivial)) ?_ opening
    intro m ls hl ps rest hp
    obtain rfl := List.head?_eq_none_iff.mp hl
    cases hp
  | cons t ts =>
    rw [pair] at h
    split at h
    · next hk =>
      refine .here [] (pointsTo_refuse h (.inr trivial)) ?_ opening
      intro m ls hl ps rest hp
      cases hp with
      | last hk' =>
        cases hl
        rw [hk] at hk'
        cases hk'
      | more hk' =>
        cases hl
        rw [hk] at hk'
        cases hk'
    · next key hk =>
      rw [bind_eq_error] at h
      rcases h with h | ⟨mid, hx, h⟩
      · obtain ⟨hp, hl⟩ := expect_eq_error h
        refine .here [t] hp ?_ ⟨_, _, rfl, value hk⟩
        intro m ls hls ps rest hp
        cases hp with
        | last => exact hl hls.symm
        | more => exact hl hls.symm
      · obtain ⟨o, rfl⟩ := expect_eq_ok.mp hx
        simp only [List.length_cons] at hb
        rw [bind_ok_eq_error] at h
        refine (hE (by omega) h).lift_cons [t] ⟨.symbol .colon, o⟩ ?_ ?_
        · intro m ls ps rest hp
          cases hp with
          | last _ he => exact ⟨m, _, _, he⟩
          | more _ he => exact ⟨m, _, _, he⟩
        · intro ls e he
          exact ⟨_, [(key, e)], .append ls rfl, .last hk (reads_append he rfl)⟩

theorem blames_pairs {fuel : Nat} (hb : ts.length ≤ bound) (hf : ts.length ≤ fuel)
    (h : pairs stop (expression stop bound n) fuel ts = .error err) :
    Blames stop (fun m => Pairs (Reads m)) (Pairs (Reads (n + 1))) ts err := by
  induction fuel generalizing ts with
  | zero =>
    obtain rfl : ts = [] := List.length_eq_zero_iff.mp (Nat.le_zero.mp hf)
    cases h
    exact blames_pair hE hb rfl
  | succ fuel ih =>
    rw [pairs, bind_eq_error] at h
    rcases h with h | ⟨⟨⟨key, e⟩, mid⟩, hp, h⟩
    · exact blames_pair hE hb h
    · obtain ⟨w, t, u, rfl, hwt, hk, hw⟩ := pair_prefix hb hp
      have closing : Completable (Pairs (Reads (n + 1))) (lexemes w) := by
        rw [hwt]
        exact ⟨[.symbol .rightBrace], [(key, e.bare)], rfl, .last hk (reads_succ (hw (.inr rfl)))⟩
      have behind : ∀ ⦃m ls ps rest⦄, GivesWay (lexemes mid) ls →
          Pairs (Reads m) (lexemes w ++ ls) ps rest →
          startsWith .rightBrace ls = true ∨ startsWith .comma ls = true := by
        intro m ls ps rest hg hps
        rw [hwt] at hps
        obtain rfl | ⟨_, _, rfl, -⟩ := pairs_next (hw hg) hps
        · exact .inl rfl
        · exact .inr rfl
      rw [List.length_append] at hb hf
      dsimp only at h
      -- A closing brace, a comma, the end, or what the parser refuses.
      split at h
      · cases h
      · next o mid =>
        rw [bind_ok_eq_error] at h
        rw [List.length_cons] at hb hf
        refine (ih (by omega) (by omega) h).lift_cons w _ ?_ ?_
        · intro m ls ps rest hps
          rw [hwt] at hps
          obtain h | ⟨ls', ps', h, hps⟩ := pairs_next (hw (givesWay_cons _ _ _)) hps
          · cases h
          · cases h
            exact ⟨m, ps', rest, hps⟩
        · intro ls ps hps
          refine ⟨ls, (key, e.bare) :: ps, .refl ls, ?_⟩
          rw [hwt]
          exact .more hk (reads_succ (hw (givesWay_cons _ _ _))) hps
      · exact .unclosed w (pointsTo_refuse h (.inr trivial)) rfl rfl behind closing
      · next h1 h2 _ =>
        exact .unclosed w (pointsTo_refuse h (.inl rfl)) (startsWith_lexemes_eq_false h1)
          (startsWith_lexemes_eq_false h2) behind closing

/-- Arguments of which there is one at least. -/
def SomeArguments (S : Reading) (ls : List Lexeme) (es : List Expr) (rest : List Lexeme) : Prop :=
  Arguments S ls es rest ∧ startsWith .rightParen ls = false

theorem blames_arguments {name : Text} {fuel : Nat} (hb : ts.length ≤ bound)
    (hf : ts.length ≤ fuel)
    (h : arguments stop (expression stop bound n) name fuel ts = .error err) :
    Blames stop (fun m => Arguments (Reads m)) (SomeArguments (Reads (n + 1))) ts err := by
  have last : ∀ {ls e}, Reads (n + 1) 0 ls e [.symbol .rightParen] →
      SomeArguments (Reads (n + 1)) ls [e] [] :=
    fun he => ⟨.last he, reads_opens rfl he⟩
  have ending {context : Text} (h : (refuse stop .unmatchedDelimiter context [] :
      Except ParseError (List Expr × List Token)) = .error err) :
      Blames stop (fun m => Arguments (Reads m)) (SomeArguments (Reads (n + 1))) [] err := by
    refine .here [] (pointsTo_refuse h (.inr trivial)) ?_
      ⟨[.symbol .current, .symbol .rightParen], _, rfl, last (reads_current (Nat.le_refl 0))⟩
    intro m ls hl es rest he
    obtain rfl := List.head?_eq_none_iff.mp hl
    cases he with
    | last he => exact not_reads_nil he
    | more he => exact not_reads_nil he
  induction fuel generalizing ts with
  | zero =>
    obtain rfl : ts = [] := List.length_eq_zero_iff.mp (Nat.le_zero.mp hf)
    exact ending h
  | succ fuel ih =>
    unfold arguments at h
    split at h
    · cases h
    · exact ending h
    · next h1 _ =>
      rw [bind_eq_error] at h
      rcases h with h | ⟨⟨e, mid⟩, he, h⟩
      · refine (hE hb h).lift [] ?_ ?_
        · intro m ls hl es rest he
          cases he with
          | none =>
            obtain ⟨o, r, rfl⟩ := head?_lexemes hl
            exact absurd rfl (h1 o r)
          | last he => exact ⟨m, _, _, he⟩
          | more he => exact ⟨m, _, _, he⟩
        · intro ls e _ he
          exact ⟨_, [e], .append ls rfl, last (reads_append he rfl)⟩
      · obtain ⟨w, rfl, hw⟩ := expression_prefix hb he
        have closing : Completable (SomeArguments (Reads (n + 1))) (lexemes w) :=
          ⟨[.symbol .rightParen], [e.bare], rfl, last (reads_succ (hw (.inr rfl)))⟩
        have more : ∀ {ls es}, SomeArguments (Reads (n + 1)) ls es [] →
            SomeArguments (Reads (n + 1)) (lexemes w ++ .symbol .comma :: ls)
              (e.bare :: es) [] := by
          intro ls es hes
          have he := reads_succ (@hw (.symbol .comma :: ls) (.inr rfl))
          exact ⟨.more he hes.2 hes.1, reads_opens rfl he⟩
        rw [List.length_append] at hb hf
        dsimp only at h
        -- A closing parenthesis, a comma before one, any other comma, or what is refused.
        split at h
        · cases h
        · next o o' mid =>
          rw [List.append_cons]
          refine .here _ (pointsTo_refuse h (.inl rfl)) ?_ ?_
          · intro m ls hl es rest hes
            rw [lexemes_append, List.append_assoc] at hes
            obtain h | ⟨ls', _, h, hn, -⟩ := arguments_next (hw (.inr rfl)) hes
            · cases h
            · cases h
              exact absurd ((startsWith_congr hl).symm.trans hn) Bool.noConfusion
          · refine ⟨[.symbol .current, .symbol .rightParen], [e.bare, .atom .current 0], rfl, ?_⟩
            rw [lexemes_append, List.append_assoc]
            exact more (last (reads_current (Nat.le_refl 0)))
        · next o mid _ =>
          rw [bind_ok_eq_error] at h
          rw [List.length_cons] at hb hf
          refine (ih (by omega) (by omega) h).lift_cons w _ ?_ ?_
          · intro m ls es rest hes
            obtain h | ⟨ls', es', h, -, hes⟩ := arguments_next (hw (.inr rfl)) hes
            · cases h
            · cases h
              exact ⟨m, es', rest, hes⟩
          · intro ls es hes
            exact ⟨ls, _, .refl ls, more hes⟩
        · next h1 h2 h3 =>
          refine .unclosed w (pointsTo_refuse h (.inl rfl)) (startsWith_lexemes_eq_false h1)
            (startsWith_lexemes_eq_false h3) ?_ closing
          intro m ls es rest hg hes
          obtain rfl | ⟨_, _, rfl, -⟩ := arguments_next (hw hg) hes
          · exact .inl rfl
          · exact .inr rfl

theorem blames_afterDot {least : Nat} (hb : ts.length ≤ bound)
    (h : afterDot stop bound (expression stop bound n) least ts = .error err) :
    Blames stop (fun m => AfterDot (Reads m) least) (AfterDot (Reads (n + 1)) least) ts err := by
  have expr {t : Token} {ts : List Token} (hb : (t :: ts).length ≤ bound)
      (ht : followsDot t.lexeme = true)
      (h : expression stop bound n least (t :: ts) = .error err) :
      Blames stop (fun m => AfterDot (Reads m) least) (AfterDot (Reads (n + 1)) least)
        (t :: ts) err := by
    obtain ⟨e, he⟩ := reads_followsDot ht least
    obtain ⟨l, o⟩ := t
    refine (hE hb h).lift_started [] ⟨1, [], e, [], he⟩ ?_ ?_
    · intro m ls _ e rest he
      cases he with
      | expr _ he => exact ⟨m, _, _, he⟩
      | list | hash => cases ht
    · intro ls e _ he
      exact ⟨ls, e, .refl ls, .expr ht he⟩
  unfold afterDot at h
  split at h
  · exact expr hb rfl h
  · exact expr hb rfl h
  · exact expr hb rfl h
  · next o ts =>
    rw [List.length_cons] at hb
    rw [multiList, bind_ok_eq_error] at h
    refine (blames_elements hE (by omega) (by omega) h).lift_cons [] _ ?_ ?_
    · intro m ls e rest he
      cases he with
      | list he => exact ⟨m, _, _, he⟩
      | expr ht => cases ht
    · intro ls es he
      exact ⟨ls, _, .refl ls, .list he⟩
  · next o ts =>
    rw [List.length_cons] at hb
    rw [multiHash, bind_ok_eq_error] at h
    refine (blames_pairs hE (by omega) (by omega) h).lift_cons [] _ ?_ ?_
    · intro m ls e rest he
      cases he with
      | hash he => exact ⟨m, _, _, he⟩
      | expr ht => cases ht
    · intro ls ps he
      exact ⟨ls, _, .refl ls, .hash he⟩
  · next h1 h2 h3 h4 h5 =>
    refine .here [] (pointsTo_refuse h (.inl rfl)) ?_ ?_
    · intro m ls hl e rest he
      cases he with
      | @expr t _ _ _ ht =>
        obtain ⟨o, r, rfl⟩ := head?_lexemes hl
        cases t with
        | identifier name => exact h1 _ _ _ rfl
        | quotedIdentifier name => exact h2 _ _ _ rfl
        | symbol s => cases s <;> first | exact h3 _ _ rfl | cases ht
        | rawString | literal | number => cases ht
      | list =>
        obtain ⟨o, r, rfl⟩ := head?_lexemes hl
        exact h4 _ _ rfl
      | hash =>
        obtain ⟨o, r, rfl⟩ := head?_lexemes hl
        exact h5 _ _ rfl
    · obtain ⟨e, he⟩ := reads_followsDot (t := .identifier []) rfl least
      exact ⟨[.identifier []], e, rfl, .expr rfl (reads_mono (Nat.le_add_left 1 n) he)⟩

theorem blames_projected {least : Nat} (hb : ts.length ≤ bound)
    (h : projected stop bound (expression stop bound n) least ts = .error err) :
    Blames stop (fun m => Projected (Reads m) least) (Projected (Reads (n + 1)) least) ts err := by
  unfold projected at h
  split at h
  · cases h
  · next hp =>
    rw [Nat.not_lt] at hp
    split at h
    · refine (hE hb h).lift_started [] ⟨1, (reads_bracket least).1⟩ ?_ ?_
      · intro m ls _ e rest he
        cases he with
        | stop hs => exact absurd hp (Nat.not_le_of_lt hs)
        | bracket he => exact ⟨m, _, _, he⟩
      · intro ls e _ he
        exact ⟨ls, e, .refl ls, .bracket he⟩
    · refine (hE hb h).lift_started [] ⟨2, (reads_bracket least).2⟩ ?_ ?_
      · intro m ls _ e rest he
        cases he with
        | stop hs => exact absurd hp (Nat.not_le_of_lt hs)
        | filter he => exact ⟨m, _, _, he⟩
      · intro ls e _ he
        exact ⟨ls, e, .refl ls, .filter he⟩
    · rw [List.length_cons] at hb
      refine (blames_afterDot hE (by omega) h).lift_cons [] _ ?_ ?_
      · intro m ls e rest he
        cases he with
        | stop hs => exact absurd hp (Nat.not_le_of_lt hs)
        | dot he => exact ⟨m, _, _, he⟩
      · intro ls e he
        exact ⟨ls, e, .refl ls, .dot he⟩
    · next h1 h2 h3 =>
      refine .here [] (pointsTo_refuse h (.inl rfl)) ?_
        ⟨[], _, rfl, .stop (Nat.zero_lt_succ 9)⟩
      intro m ls hl e rest he
      cases he with
      | stop hs =>
        rw [power_eq, ← headPower_congr hl] at hp
        exact absurd hp (Nat.not_le_of_lt hs)
      | bracket =>
        obtain ⟨o, r, rfl⟩ := head?_lexemes hl
        exact h1 _ _ rfl
      | filter =>
        obtain ⟨o, r, rfl⟩ := head?_lexemes hl
        exact h2 _ _ rfl
      | dot =>
        obtain ⟨o, r, rfl⟩ := head?_lexemes hl
        exact h3 _ _ rfl

theorem blames_bracketed {left : Expr} {o : Nat} (left' : Expr) (hb : ts.length ≤ bound)
    (ho : startsBracket ts = true)
    (h : bracketed stop bound (expression stop bound n) left o ts = .error err) :
    Blames stop (fun m => Bracketed (Reads m) left') (Bracketed (Reads (n + 1)) left')
      ts err := by
  rw [bracketed, bind_eq_error] at h
  rcases h with h | ⟨⟨a, mid⟩, ha, h⟩
  · refine (blames_bracket ho h).lift [] ?_ ?_
    · intro m ls _ e rest he
      cases he with
      | index ha => exact ⟨m, _, _, ha⟩
      | slice ha => exact ⟨m, _, _, ha⟩
    · intro ls a _ ha
      cases a with
      | slice => exact ⟨ls, _, .refl ls, .slice ha (.stop (Nat.zero_lt_succ 9))⟩
      | index => exact ⟨ls, _, .refl ls, .index ha⟩
      | _ => cases ha
  · dsimp only at h
    split at h
    · next s =>
      obtain ⟨w, rfl, hw⟩ := bracket_prefix ho ha
      rw [List.length_append] at hb
      rw [bind_ok_eq_error] at h
      refine (blames_projected hE (by omega) h).lift w ?_ ?_
      · intro m ls _ e rest he
        cases he with
        | index ha' => cases (bracket_unique (hw ls) ha').1
        | slice ha' he =>
          obtain ⟨-, rfl⟩ := bracket_unique (hw ls) ha'
          exact ⟨m, _, _, he⟩
      · intro ls e _ he
        exact ⟨ls, _, .refl ls, .slice (hw ls) he⟩
    · cases h

theorem blames_filtered {left : Expr} {o : Nat} (left' : Expr) (hb : ts.length ≤ bound)
    (h : filtered stop bound (expression stop bound n) left o ts = .error err) :
    Blames stop (fun m => Filtered (Reads m) left') (Filtered (Reads (n + 1)) left')
      ts err := by
  rw [filtered, bind_eq_error] at h
  rcases h with h | ⟨⟨p, mid⟩, hp, h⟩
  · refine (hE hb h).lift [] ?_ ?_
    · intro m ls _ e rest he
      cases he with
      | intro hp => exact ⟨m, _, _, hp⟩
    · intro ls p _ hp
      exact ⟨_, _, .append ls rfl, .intro (reads_append hp rfl) (.stop (Nat.zero_lt_succ 9))⟩
  · obtain ⟨w, rfl, hw⟩ := expression_prefix hb hp
    rw [List.length_append] at hb
    rw [bind_eq_error] at h
    rcases h with h | ⟨mid', hx, h⟩
    · obtain ⟨hp, hl⟩ := expect_eq_error h
      refine .here w hp ?_ ⟨[.symbol .rightBracket], _, rfl,
        .intro (reads_succ (hw (.inr rfl))) (.stop (Nat.zero_lt_succ 9))⟩
      intro m ls hls e rest he
      cases he with
      | intro hp =>
        obtain ⟨-, rfl⟩ := reads_unique (hw (.inl hls.symm)) hp
        exact hl hls.symm
    · obtain ⟨o', rfl⟩ := expect_eq_ok.mp hx
      rw [List.length_cons] at hb
      split at h
      · cases h
      · rw [bind_ok_eq_error] at h
        refine (blames_projected hE (by omega) h).lift_cons w _ ?_ ?_
        · intro m ls e rest he
          cases he with
          | intro hp he =>
            obtain ⟨-, h⟩ := reads_unique (hw (.inr rfl)) hp
            cases h
            exact ⟨m, _, _, he⟩
        · intro ls e he
          exact ⟨ls, _, .refl ls, .intro (reads_succ (hw (.inr rfl))) he⟩

/-- A list of which nothing but its bracket is read yet may turn out to stand for all items. -/
theorem blames_list (hb : ts.length ≤ bound) (ho : opensIndex (lexemes ts) = false)
    (hi : opensItems (lexemes ts) = false)
    (h : elements stop (expression stop bound n) bound ts = .error err) :
    Blames stop (fun m ls => Operand (Reads m) (.symbol .leftBracket :: ls))
      (fun ls => Operand (Reads (n + 1)) (.symbol .leftBracket :: ls)) ts err := by
  have h := blames_elements hE hb hb h
  have star : ∀ ls, Elements (Reads 1) (.symbol .star :: .symbol .rightBracket :: ls)
      [.binary .eachValue implicit implicit 0] ls :=
    fun _ => .last ⟨_, _, .values (.stop (Nat.zero_lt_succ 9)), .stop (Nat.le_refl 0)⟩
  cases hs : startsWith .star (lexemes ts) with
  | true =>
    obtain ⟨o, r, rfl⟩ := startsWith_lexemes.mp hs
    refine h.lift_started [] ⟨1, _, _, [], star []⟩ ?_ ?_
    · intro m ls hl e rest he
      cases he with
      | bracket ho' => cases ho'
      | items => exact absurd ((startsWith_congr hl).trans hi) Bool.noConfusion
      | list _ _ he => exact ⟨m, _, _, he⟩
    · intro ls es _ he
      cases hr : startsWith .rightBracket ls with
      | true =>
        obtain ⟨ls, rfl⟩ := startsWith_iff.mp hr
        obtain ⟨-, rfl⟩ := elements_unique (star ls) he
        exact ⟨_, _, .refl _, .items (.stop (Nat.zero_lt_succ 9))⟩
      | false => exact ⟨ls, _, .refl ls, .list rfl hr he⟩
  | false =>
    refine h.lift [] ?_ ?_
    · intro m ls hl e rest he
      cases he with
      | bracket ho' =>
        exact absurd (ho'.symm.trans ((opensIndex_congr hl).trans ho)) Bool.noConfusion
      | items => exact absurd ((startsWith_congr hl).trans hs) Bool.noConfusion
      | list _ _ he => exact ⟨m, _, _, he⟩
    · intro ls es hg he
      obtain ⟨_, _, hr⟩ := elements_reads he
      have hs' := hg.startsWith_eq_false (by decide) hs
      exact ⟨ls, _, .refl ls, .list (reads_opensIndex hr) (opensItems_eq_false hs') he⟩

/-- After an opening bracket there is an index or a slice, a star that stands for all items, or a
list. -/
theorem blames_opening {o : Nat} (hb : ts.length ≤ bound)
    (h : operand stop bound (expression stop bound n) (⟨.symbol .leftBracket, o⟩ :: ts) =
      .error err) :
    Blames stop (fun m ls => Operand (Reads m) (.symbol .leftBracket :: ls))
      (fun ls => Operand (Reads (n + 1)) (.symbol .leftBracket :: ls)) ts err := by
  unfold operand at h
  dsimp only at h
  split at h
  · next ho =>
    refine (blames_bracketed hE implicit hb ho h).lift [] ?_ ?_
    · intro m ls hl e rest he
      rw [startsBracket_eq, ← opensIndex_congr hl] at ho
      cases he with
      | bracket _ he => exact ⟨m, _, _, he⟩
      | items => cases ho
      | list ho' => exact absurd (ho.symm.trans ho') Bool.noConfusion
    · intro ls e _ he
      exact ⟨ls, _, .refl ls, .bracket (bracketed_opensIndex he) he⟩
  · next ho =>
    rw [Bool.not_eq_true, startsBracket_eq] at ho
    split at h
    · next o' o'' ts =>
      simp only [List.length_cons] at hb
      rw [bind_ok_eq_error] at h
      refine (blames_projected hE (by omega) h).lift_cons [⟨.symbol .star, o'⟩] _ ?_ ?_
      · intro m ls e rest he
        cases he with
        | bracket ho' => cases ho'
        | items he => exact ⟨m, _, _, he⟩
        | list _ hi => cases hi
      · intro ls e he
        exact ⟨ls, _, .refl ls, .items he⟩
    · next hi =>
      rw [multiList, bind_ok_eq_error] at h
      exact blames_list hE hb ho (opensItems_lexemes hi) h

theorem blames_group (o : Nat) (hb : ts.length ≤ bound)
    (h : operand stop bound (expression stop bound n) (⟨.symbol .leftParen, o⟩ :: ts) =
      .error err) :
    Blames stop (fun m ls => Operand (Reads m) (.symbol .leftParen :: ls))
      (fun ls => Operand (Reads (n + 1)) (.symbol .leftParen :: ls)) ts err := by
  unfold operand at h
  dsimp only at h
  rw [bind_eq_error] at h
  rcases h with h | ⟨⟨e, mid⟩, he, h⟩
  · refine (hE hb h).lift [] ?_ ?_
    · intro m ls _ e rest he
      cases he with
      | group he => exact ⟨m, _, _, he⟩
    · intro ls e _ he
      exact ⟨_, _, .append ls rfl, .group (reads_append he rfl)⟩
  · obtain ⟨w, rfl, hw⟩ := expression_prefix hb he
    rw [bind_ok_eq_error] at h
    obtain ⟨hp, hl⟩ := expect_eq_error h
    refine .here w hp ?_ ⟨[.symbol .rightParen], _, rfl, .group (reads_succ (hw (.inr rfl)))⟩
    intro m ls hls e rest he
    cases he with
    | group he =>
      obtain ⟨-, rfl⟩ := reads_unique (hw (.inl hls.symm)) he
      exact hl hls.symm

theorem blames_operand (hb : ts.length ≤ bound)
    (h : operand stop bound (expression stop bound n) ts = .error err) :
    Blames stop (fun m => Operand (Reads m)) (Operand (Reads (n + 1))) ts err := by
  have opening : Completable (Operand (Reads (n + 1))) [] :=
    ⟨[.symbol .current], _, rfl, .current⟩
  cases ts with
  | nil =>
    refine .here [] (pointsTo_refuse h (.inl rfl)) ?_ opening
    intro m ls hl e rest he
    obtain rfl := List.head?_eq_none_iff.mp hl
    cases he
  | cons t ts =>
    obtain ⟨l, o⟩ := t
    rw [List.length_cons] at hb
    unfold operand at h
    dsimp only at h
    -- One case for each kind of lexeme that the parser looks for, in its order.
    split at h
    · cases h
    · split at h
      · refine .here [_] (pointsTo_refuse h (.inl rfl)) ?_ ⟨[], _, rfl, .quotedIdentifier rfl⟩
        intro m ls hl e rest he
        cases he with
        | quotedIdentifier hn =>
          exact absurd ((startsWith_congr hl).symm.trans hn) Bool.noConfusion
      · cases h
    · cases h
    · cases h
    · cases h
    · split at h
      · cases h
      · rw [bind_ok_eq_error] at h
        refine (blames_projected hE (by omega) h).lift_cons [] _ ?_ ?_
        · intro m ls e rest he
          cases he with
          | values he => exact ⟨m, _, _, he⟩
        · intro ls e he
          exact ⟨ls, _, .refl ls, .values he⟩
    · refine (blames_filtered hE implicit (by omega) h).lift_cons [] _ ?_ ?_
      · intro m ls e rest he
        cases he with
        | filter he => exact ⟨m, _, _, he⟩
      · intro ls e he
        exact ⟨ls, _, .refl ls, .filter he⟩
    · rw [flattened, bind_ok_eq_error] at h
      refine (blames_projected hE (by omega) h).lift_cons [] _ ?_ ?_
      · intro m ls e rest he
        cases he with
        | flatten he => exact ⟨m, _, _, he⟩
      · intro ls e he
        exact ⟨ls, _, .refl ls, .flatten he⟩
    · rw [bind_ok_eq_error] at h
      refine (hE (by omega) h).lift_cons [] _ ?_ ?_
      · intro m ls e rest he
        cases he with
        | not he => exact ⟨m, _, _, he⟩
      · intro ls e he
        exact ⟨ls, _, .refl ls, .not he⟩
    · exact (blames_group hE o (by omega) h).cons _
    · rw [multiHash, bind_ok_eq_error] at h
      refine (blames_pairs hE (by omega) (by omega) h).lift_cons [] _ ?_ ?_
      · intro m ls e rest he
        cases he with
        | hash he => exact ⟨m, _, _, he⟩
      · intro ls ps he
        exact ⟨ls, _, .refl ls, .hash he⟩
    · rw [bind_ok_eq_error] at h
      refine (hE (by omega) h).lift_cons [] _ ?_ ?_
      · intro m ls e rest he
        cases he with
        | reference he => exact ⟨m, _, _, he⟩
      · intro ls e he
        exact ⟨ls, _, .refl ls, .reference he⟩
    · exact (blames_opening hE (by omega) h).cons _
    · refine .here [] (pointsTo_refuse h (.inl rfl)) ?_ opening
      intro m ls hl e rest he
      cases he <;> cases hl <;> simp_all

/-- Where no index and no slice starts, an opening bracket is to be followed by a star. -/
theorem blames_items {left : Expr} {o : Nat} {c c' : Text} (left' : Expr)
    (hb : ts.length ≤ bound) (ho : opensIndex (lexemes ts) = false)
    (h : (do
      let rest ← expect stop .star c ts
      let rest ← expect stop .rightBracket c' rest
      let (right, rest) ← projected stop bound (expression stop bound n) starPower rest
      .ok (Expr.binary .eachItem left right o, rest)) = .error err) :
    Blames stop (fun m ls => Extension (Reads m) left' (.symbol .leftBracket :: ls))
      (fun ls => Extension (Reads (n + 1)) left' (.symbol .leftBracket :: ls)) ts err := by
  rw [bind_eq_error] at h
  rcases h with h | ⟨mid, hx, h⟩
  · obtain ⟨hp, hl⟩ := expect_eq_error h
    refine .here [] hp ?_
      ⟨[.number 0, .symbol .rightBracket], _, rfl, .bracket rfl (.index .index)⟩
    intro m ls hls e rest he
    cases he with
    | bracket ho' =>
      exact absurd (ho'.symm.trans ((opensIndex_congr hls).trans ho)) Bool.noConfusion
    | items => exact hl hls.symm
    | infixed hs | compare hs => cases hs
  · obtain ⟨o, rfl⟩ := expect_eq_ok.mp hx
    rw [List.length_cons] at hb
    rw [bind_eq_error] at h
    rcases h with h | ⟨mid', hx, h⟩
    · obtain ⟨hp, hl⟩ := expect_eq_error h
      refine .here [⟨.symbol .star, o⟩] hp ?_
        ⟨[.symbol .rightBracket], _, rfl, .items (.stop (Nat.zero_lt_succ 9))⟩
      intro m ls hls e rest he
      cases he with
      | bracket ho' => cases ho'
      | items => exact hl hls.symm
      | infixed hs | compare hs => cases hs
    · obtain ⟨o', rfl⟩ := expect_eq_ok.mp hx
      rw [List.length_cons] at hb
      rw [bind_ok_eq_error] at h
      refine (blames_projected hE (by omega) h).lift_cons [⟨.symbol .star, o⟩] _ ?_ ?_
      · intro m ls e rest he
        cases he with
        | bracket ho' => cases ho'
        | items he => exact ⟨m, _, _, he⟩
        | infixed hs | compare hs => cases hs
      · intro ls e he
        exact ⟨ls, _, .refl ls, .items he⟩

/-- A bracket behind an operand opens an index or a slice, or stands for all items. -/
theorem blames_subscript {left : Expr} {o : Nat} (left' : Expr) (hb : ts.length ≤ bound)
    (h : extend stop bound (expression stop bound n) left ⟨.symbol .leftBracket, o⟩ ts =
      .error err) :
    Blames stop (fun m ls => Extension (Reads m) left' (.symbol .leftBracket :: ls))
      (fun ls => Extension (Reads (n + 1)) left' (.symbol .leftBracket :: ls)) ts err := by
  unfold extend at h
  dsimp only at h
  split at h
  · next ho =>
    refine (blames_bracketed hE left' hb ho h).lift [] ?_ ?_
    · intro m ls hl e rest he
      rw [startsBracket_eq, ← opensIndex_congr hl] at ho
      cases he with
      | bracket _ he => exact ⟨m, _, _, he⟩
      | items => cases ho
      | infixed hs | compare hs => cases hs
    · intro ls e _ he
      exact ⟨ls, _, .refl ls, .bracket (bracketed_opensIndex he) he⟩
  · next ho =>
    rw [Bool.not_eq_true, startsBracket_eq] at ho
    exact blames_items hE left' hb ho h

theorem blames_dot {left : Expr} {o : Nat} (left' : Expr) (hb : ts.length ≤ bound)
    (h : extend stop bound (expression stop bound n) left ⟨.symbol .dot, o⟩ ts = .error err) :
    Blames stop (fun m ls => Extension (Reads m) left' (.symbol .dot :: ls))
      (fun ls => Extension (Reads (n + 1)) left' (.symbol .dot :: ls)) ts err := by
  unfold extend at h
  dsimp only at h
  split at h
  · rw [bind_ok_eq_error] at h
    rw [List.length_cons] at hb
    refine (blames_projected hE (by omega) h).lift_cons [] _ ?_ ?_
    · intro m ls e rest he
      cases he with
      | values he => exact ⟨m, _, _, he⟩
      | step hs => cases hs
      | infixed hs | compare hs => cases hs
    · intro ls e he
      exact ⟨ls, _, .refl ls, .values he⟩
  · next hn =>
    have hn := startsWith_lexemes_eq_false hn
    rw [bind_ok_eq_error] at h
    refine (blames_afterDot hE hb h).lift [] ?_ ?_
    · intro m ls hl e rest he
      cases he with
      | values => exact absurd ((startsWith_congr hl).trans hn) Bool.noConfusion
      | step _ he => exact ⟨m, _, _, he⟩
      | infixed hs | compare hs => cases hs
    · intro ls e hg he
      exact ⟨ls, _, .refl ls, .step (hg.startsWith_eq_false (by decide) hn) he⟩

theorem blames_infixed {left left' : Expr} {o : Nat} {s : Symbol} {op : BinaryOp}
    (hs : infixOp? s = some op) (hb : ts.length ≤ bound)
    (h : infixed (expression stop bound n) op (Lexeme.power (.symbol s)) left o ts =
      .error err) :
    Blames stop (fun m ls => Extension (Reads m) left' (.symbol s :: ls))
      (fun ls => Extension (Reads (n + 1)) left' (.symbol s :: ls)) ts err := by
  rw [infixed, bind_ok_eq_error] at h
  refine (hE hb h).lift [] ?_ ?_
  · intro m ls _ e rest he
    cases he with
    | infixed _ he => exact ⟨m, _, _, he⟩
    | compare hc => exact absurd hc (comparator?_ne hs)
    | _ => cases hs
  · intro ls e _ he
    exact ⟨ls, _, .refl ls, .infixed hs he⟩

theorem blames_compared {left left' : Expr} {o : Nat} {s : Symbol} {c : Comparator}
    (hs : comparator? s = some c) (hb : ts.length ≤ bound)
    (h : compared stop (expression stop bound n) c (Lexeme.power (.symbol s)) left o ts =
      .error err) :
    Blames stop (fun m ls => Extension (Reads m) left' (.symbol s :: ls))
      (fun ls => Extension (Reads (n + 1)) left' (.symbol s :: ls)) ts err := by
  have inner : ∀ {m ls e rest}, Extension (Reads m) left' (.symbol s :: ls) e rest →
      ∃ right, Reads m (Lexeme.power (.symbol s)) ls right rest ∧ compares rest = false := by
    intro m ls e rest he
    cases he with
    | compare _ he hr => exact ⟨_, he, hr⟩
    | infixed hs' => exact absurd hs (comparator?_ne hs')
    | _ => cases hs
  rw [compared, bind_eq_error] at h
  rcases h with h | ⟨⟨right, mid⟩, hr, h⟩
  · refine (hE hb h).lift [] ?_ ?_
    · intro m ls _ e rest he
      obtain ⟨right, he, -⟩ := inner he
      exact ⟨m, _, _, he⟩
    · intro ls e _ he
      exact ⟨ls, _, .refl ls, .compare hs he rfl⟩
  · obtain ⟨w, rfl, hw⟩ := expression_prefix hb hr
    dsimp only at h
    split at h
    · next hc =>
      refine .here w (pointsTo_refuse h (.inl rfl)) ?_
        ⟨[], _, rfl, .compare hs (reads_succ (hw (.inr rfl))) rfl⟩
      intro m ls hl e rest he
      obtain ⟨right, he, hr⟩ := inner he
      obtain ⟨-, rfl⟩ := reads_unique (hw (.inl hl.symm)) he
      rw [startsWithComparator_eq, ← compares_congr hl] at hc
      exact absurd (hc.symm.trans hr) Bool.noConfusion
    · cases h

/-- An operator is blamed itself, or else something that it is to be followed by. -/
theorem blames_extend {left : Expr} {t : Token} (hb : ts.length ≤ bound)
    (h : extend stop bound (expression stop bound n) left t ts = .error err) :
    (PointsTo stop (t :: ts) err ∧
        ∀ m ls e rest, ¬ Extension (Reads m) left.bare (t.lexeme :: ls) e rest) ∨
      Blames stop (fun m ls => Extension (Reads m) left.bare (t.lexeme :: ls))
        (fun ls => Extension (Reads (n + 1)) left.bare (t.lexeme :: ls)) ts err := by
  obtain ⟨l, o⟩ := t
  generalize hlb : left.bare = lb
  dsimp only
  unfold extend at h
  dsimp only at h
  -- A dot, a bracket, a filter, a flattening, three infixes, a call and the comparisons.
  split at h
  · exact .inr (blames_dot hE lb hb h)
  · exact .inr (blames_subscript hE lb hb h)
  · right
    refine (blames_filtered hE lb hb h).lift [] ?_ ?_
    · intro m ls _ e rest he
      cases he with
      | filter he => exact ⟨m, _, _, he⟩
      | infixed hs | compare hs => cases hs
    · intro ls e _ he
      exact ⟨ls, _, .refl ls, .filter he⟩
  · right
    rw [flattened, bind_ok_eq_error] at h
    refine (blames_projected hE hb h).lift [] ?_ ?_
    · intro m ls _ e rest he
      cases he with
      | flatten he => exact ⟨m, _, _, he⟩
      | infixed hs | compare hs => cases hs
    · intro ls e _ he
      exact ⟨ls, _, .refl ls, .flatten he⟩
  · exact .inr (blames_infixed hE rfl hb h)
  · exact .inr (blames_infixed hE rfl hb h)
  · exact .inr (blames_infixed hE rfl hb h)
  · split at h
    · right
      subst hlb
      rw [bind_ok_eq_error] at h
      refine (blames_arguments hE hb hb h).lift [] ?_ ?_
      · intro m ls _ e rest he
        generalize hlb : Expr.bare _ = lb at he
        cases he with
        | call he => exact ⟨m, _, _, he⟩
        | infixed hs | compare hs => cases hs
      · intro ls es _ he
        exact ⟨ls, _, .refl ls, .call he.1⟩
    · next hn =>
      left
      refine ⟨pointsTo_refuse h (.inl rfl), ?_⟩
      intro m ls e rest he
      cases he with
      | call =>
        obtain ⟨o', rfl⟩ := bare_eq_field hlb
        exact hn _ _ rfl
      | infixed hs | compare hs => cases hs
  · split at h
    · next hc => exact .inr (blames_compared hE hc hb h)
    · next s _ _ _ _ _ _ _ _ _ hc =>
      left
      refine ⟨pointsTo_refuse h (.inl rfl), ?_⟩
      intro m ls e rest he
      cases he with
      | @infixed _ s _ _ _ _ hs =>
        cases s <;> contradiction
      | compare hs => cases hc.symm.trans hs
      | _ => contradiction
  · left
    refine ⟨pointsTo_refuse h (.inl rfl), ?_⟩
    intro m ls e rest he
    cases he <;> simp_all

theorem blames_operators {left : Expr} {least fuel : Nat} (hb : ts.length ≤ bound)
    (h : operators stop bound (expression stop bound n) least fuel left ts = .error err) :
    Blames stop (fun m => Operators (Reads m) least left.bare)
      (Operators (Reads (n + 1)) least left.bare) ts err := by
  induction fuel generalizing left ts with
  | zero => cases h
  | succ fuel ih =>
    cases ts with
    | nil => cases h
    | cons t ts =>
      rw [operators] at h
      rw [List.length_cons] at hb
      split at h
      · next hp =>
        -- The operator binds tightly enough to go on, so a reading has to go on with it.
        have extended : ∀ {m ls e rest},
            Operators (Reads m) least left.bare (t.lexeme :: ls) e rest →
            ∃ e' mid, Extension (Reads m) left.bare (t.lexeme :: ls) e' mid ∧
              Operators (Reads m) least e' mid e rest := by
          intro m ls e rest ho
          cases ho with
          | stop hs => exact absurd hp (Nat.not_lt_of_le hs)
          | more _ he ho => exact ⟨_, _, he, ho⟩
        rw [bind_eq_error] at h
        rcases h with h | ⟨⟨left', mid⟩, hx, h⟩
        · obtain ⟨hpt, hn⟩ | h := blames_extend hE (by omega) h
          · refine .here [] hpt ?_ ⟨[], _, rfl, .stop (Nat.zero_le _)⟩
            intro m ls hl e rest ho
            obtain ⟨ls, rfl⟩ := List.head?_eq_some_iff.mp hl
            obtain ⟨_, _, he, -⟩ := extended ho
            exact hn _ _ _ _ he
          · refine h.lift_cons [] t ?_ ?_
            · intro m ls e rest ho
              obtain ⟨_, _, he, -⟩ := extended ho
              exact ⟨m, _, _, he⟩
            · intro ls e he
              exact ⟨ls, _, .refl ls, .more hp he (.stop (Nat.zero_le _))⟩
        · obtain ⟨w, rfl, hw⟩ := extend_prefix (by omega) hx
          rw [List.length_append] at hb
          refine (ih (by omega) h).lift (t :: w) ?_ ?_
          · intro m ls hl e rest ho
            obtain ⟨_, _, he, ho⟩ := extended ho
            obtain ⟨rfl, rfl⟩ := extension_unique (hw (.inl hl.symm)) he
            exact ⟨m, _, _, ho⟩
          · intro ls e hg ho
            refine ⟨ls, e, .refl ls, .more hp ?_ ho⟩
            exact extension_mono (fun _ _ _ _ => reads_succ) (hw hg)
      · cases h

end

/-- The errors of the parser of expressions point to the earliest token. -/
theorem blames_expression (stop bound n : Nat) : Earliest stop bound n := by
  induction n with
  | zero =>
    intro least ts err _ h
    cases h
    exact ⟨[], ts, rfl, ⟨rfl, suits_tooDeep ts, fun hd => absurd rfl hd⟩,
      fun hd => absurd rfl hd⟩
  | succ n ih =>
    intro least ts err hb h
    rw [expression, bind_eq_error] at h
    rcases h with h | ⟨⟨left, mid⟩, ho, h⟩
    · refine (blames_operand ih hb h).lift [] ?_ ?_
      · rintro (_ | m) ls _ e rest he
        · exact he.elim
        · obtain ⟨_, _, ho, -⟩ := he
          exact ⟨m, _, _, ho⟩
      · intro ls e _ ho
        exact ⟨ls, e, .refl ls, _, _, ho, .stop (Nat.zero_le _)⟩
    · obtain ⟨w, rfl, hw⟩ := operand_prefix hb ho
      rw [List.length_append] at hb
      refine (blames_operators ih (by omega) h).lift w ?_ ?_
      · rintro (_ | m) ls hl e rest he
        · exact he.elim
        · obtain ⟨_, _, ho, hr⟩ := he
          obtain ⟨rfl, rfl⟩ := operand_unique (hw (.inl hl.symm)) ho
          exact ⟨m, _, _, hr⟩
      · intro ls e hg hr
        refine ⟨ls, e, .refl ls, _, _, ?_, hr⟩
        exact operand_mono (fun _ _ _ _ => reads_succ) (hw hg)

end Grammar
end JsonQuery
