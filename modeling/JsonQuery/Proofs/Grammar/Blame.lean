/-
Errors that point to a token.

An error of the parser is told at a token.  Unless the nesting is too deep, the blame is on the
earliest token that cannot stand where it does: whatever follows it, nothing is read, and without
it the tokens before it can still be completed.

* `Grammar.PointsTo` — an error is told at some tokens, and is of a kind that suits them;
* `Grammar.Blames` — it points to the earliest token that rules every reading out;
* `Grammar.Blames.lift` — the blame is passed on from a part of what is read to the whole.
-/
import JsonQuery.Proofs.Grammar.Complete
import JsonQuery.Proofs.Grammar.Local
import JsonQuery.Proofs.Grammar.Suffix

namespace JsonQuery

/-- The problems that may be found at the end of a source. -/
def ParseProblem.AtEnd : ParseProblem → Prop
  | .unexpectedEnd | .unmatchedDelimiter | .tooDeep => True
  | .unexpectedToken | .malformedSlice | .invalidKey => False

/-- The problems that may be found at a token; only what closes can lack its other half. -/
def ParseProblem.At (l : Lexeme) : ParseProblem → Prop
  | .unexpectedEnd => False
  | .unmatchedDelimiter => ∃ s, l = .symbol s ∧ Parser.isCloser s = true
  | .unexpectedToken | .malformedSlice | .invalidKey | .tooDeep => True

namespace Grammar

open JsonQuery.Parser

/-! ### Errors at tokens -/

/-- The tokens that a problem suits: an end that comes too early, or the first of some tokens. -/
def Suits (problem : ParseProblem) : List Token → Prop
  | [] => problem.AtEnd
  | t :: _ => problem.At t.lexeme

theorem suits_tooDeep (ts : List Token) : Suits .tooDeep ts := by
  cases ts <;> trivial

/-- An error that is told at some tokens, and is of a kind that suits them. -/
structure PointsTo (stop : Nat) (ts : List Token) (err : ParseError) : Prop where
  offset : err.offset = place stop ts
  suits : Suits err.problem ts
  found : err.problem ≠ .tooDeep → err.found = Parser.found ts

/-- What is refused is told where it stands; a missing token is never unexpected. -/
theorem pointsTo_refuse {α : Type} {stop : Nat} {problem : ParseProblem} {context : Text}
    {ts : List Token} {err : ParseError}
    (h : (refuse stop problem context ts : Except ParseError α) = .error err)
    (hs : problem = .unexpectedToken ∨ Suits problem ts) : PointsTo stop ts err := by
  cases h
  refine ⟨rfl, ?_, fun _ => rfl⟩
  cases ts with
  | nil =>
    rcases hs with rfl | hs
    · exact trivial
    · cases problem <;> first | exact hs | exact False.elim hs
  | cons t ts =>
    rcases hs with rfl | hs
    · exact trivial
    · exact hs

/-! ### The earliest token -/

section
variable {α β : Type}

/-- No lexemes are read that go on from `u` with the first lexeme of `r`, or end there with it. -/
def Refuted (P : Nat → List Lexeme → α → List Lexeme → Prop) (u r : List Lexeme) : Prop :=
  ∀ ⦃m ls⦄, ls.head? = r.head? → ∀ a rest, ¬ P m (u ++ ls) a rest

/-- Some lexemes complete `u`; the first of them continues no expression. -/
def Completable (Q : List Lexeme → α → List Lexeme → Prop) (u : List Lexeme) : Prop :=
  ∃ v a, headPower v = 0 ∧ Q (u ++ v) a []

/-- Lexemes that go on with what continues no expression. -/
def Continues (ls ls' : List Lexeme) : Prop :=
  ∃ v, headPower v = 0 ∧ ls' = ls ++ v

theorem Continues.refl (ls : List Lexeme) : Continues ls ls :=
  ⟨[], rfl, (List.append_nil ls).symm⟩

theorem Continues.append {v : List Lexeme} (ls : List Lexeme) (hv : headPower v = 0) :
    Continues ls (ls ++ v) :=
  ⟨v, hv, rfl⟩

/-- An error points to the earliest of some tokens with which nothing is read at any level. -/
def Blames (stop : Nat) (P : Nat → List Lexeme → α → List Lexeme → Prop)
    (Q : List Lexeme → α → List Lexeme → Prop) (ts : List Token) (err : ParseError) : Prop :=
  ∃ u r, ts = u ++ r ∧ PointsTo stop r err ∧
    (err.problem ≠ .tooDeep → Refuted P (lexemes u) (lexemes r) ∧ Completable Q (lexemes u))

variable {stop : Nat} {P : Nat → List Lexeme → α → List Lexeme → Prop}
  {Q : List Lexeme → α → List Lexeme → Prop} {P' : Nat → List Lexeme → β → List Lexeme → Prop}
  {Q' : List Lexeme → β → List Lexeme → Prop} {ts : List Token} {err : ParseError}

/-- An error points to tokens at which a step stops, after those in `w`. -/
theorem Blames.here (w : List Token) (hp : PointsTo stop ts err)
    (hP : ∀ ⦃m ls⦄, ls.head? = (lexemes ts).head? → ∀ a rest, ¬ P m (lexemes w ++ ls) a rest)
    (hQ : Completable Q (lexemes w)) : Blames stop P Q (w ++ ts) err :=
  ⟨w, ts, rfl, hp, fun _ => ⟨hP, hQ⟩⟩

/-- An item of a list is followed by what closes the list or by a comma, so the blame is on
anything else that comes behind it. -/
theorem Blames.unclosed {s : Symbol} (w : List Token) (hp : PointsTo stop ts err)
    (hs : startsWith s (lexemes ts) = false) (hc : startsWith .comma (lexemes ts) = false)
    (hP : ∀ ⦃m ls a rest⦄, GivesWay (lexemes ts) ls → P m (lexemes w ++ ls) a rest →
      startsWith s ls = true ∨ startsWith .comma ls = true)
    (hQ : Completable Q (lexemes w)) : Blames stop P Q (w ++ ts) err := by
  refine .here w hp ?_ hQ
  intro m ls hl a rest ha
  rw [← startsWith_congr hl] at hs hc
  obtain h | h := hP (.inl hl.symm) ha
  · exact absurd (h.symm.trans hs) Bool.noConfusion
  · exact absurd (h.symm.trans hc) Bool.noConfusion

/-- The blame is passed on from a part of what is read, which begins after the tokens in `w`. -/
theorem Blames.lift (w : List Token) (h : Blames stop P Q ts err)
    (hP : ∀ ⦃m ls⦄, ls.head? = (lexemes ts).head? → ∀ ⦃a rest⦄, P' m (lexemes w ++ ls) a rest →
      ∃ m b rest', P m ls b rest')
    (hQ : ∀ ⦃ls b⦄, GivesWay (lexemes ts) ls → Q ls b [] →
      ∃ ls' a, Continues ls ls' ∧ Q' (lexemes w ++ ls') a []) :
    Blames stop P' Q' (w ++ ts) err := by
  obtain ⟨u, r, rfl, hp, h⟩ := h
  refine ⟨w ++ u, r, (List.append_assoc _ _ _).symm, hp, ?_⟩
  intro hd
  obtain ⟨hr, v, b, hv, hb⟩ := h hd
  rw [lexemes_append] at hP hQ ⊢
  constructor
  · intro m ls hl a rest ha
    rw [List.append_assoc] at ha
    have hl' : (lexemes u ++ ls).head? = (lexemes u ++ lexemes r).head? := by
      rw [List.head?_append, List.head?_append, hl]
    obtain ⟨m', b', rest', hb'⟩ := hP hl' ha
    exact hr hl b' rest' hb'
  · obtain ⟨_, a, ⟨v', hv', rfl⟩, ha⟩ := hQ (GivesWay.append (.inr hv) (lexemes u)) hb
    refine ⟨v ++ v', a, ?_, ?_⟩
    · cases v with
      | nil => exact hv'
      | cons => exact hv
    · rwa [List.append_assoc, ← List.append_assoc (lexemes u)]

theorem lexemes_concat_append (w : List Token) (t : Token) (ls : List Lexeme) :
    lexemes (w ++ [t]) ++ ls = lexemes w ++ t.lexeme :: ls := by
  rw [lexemes_append, List.append_assoc]
  rfl

/-- The same, where the last token before that part is named. -/
theorem Blames.lift_cons (w : List Token) (t : Token) (h : Blames stop P Q ts err)
    (hP : ∀ ⦃m ls a rest⦄, P' m (lexemes w ++ t.lexeme :: ls) a rest →
      ∃ m b rest', P m ls b rest')
    (hQ : ∀ ⦃ls b⦄, Q ls b [] →
      ∃ ls' a, Continues ls ls' ∧ Q' (lexemes w ++ t.lexeme :: ls') a []) :
    Blames stop P' Q' (w ++ t :: ts) err := by
  rw [List.append_cons]
  refine h.lift (w ++ [t]) ?_ ?_
  · intro m ls _ a rest ha
    rw [lexemes_concat_append] at ha
    exact hP ha
  · intro ls b _ hb
    simp only [lexemes_concat_append]
    exact hQ hb

/-- The blame is passed on over a token that comes first. -/
theorem Blames.cons (t : Token)
    (h : Blames stop (fun m ls => P m (t.lexeme :: ls)) (fun ls => Q (t.lexeme :: ls)) ts err) :
    Blames stop P Q (t :: ts) err := by
  refine h.lift_cons [] t ?_ ?_
  · intro m ls a rest ha
    exact ⟨m, a, rest, ha⟩
  · intro ls a ha
    exact ⟨ls, a, .refl ls, ha⟩

/-- The same, where that part begins with a token from which something can be read. -/
theorem Blames.lift_started (w : List Token) {t : Token} (h : Blames stop P Q (t :: ts) err)
    (hs : ∃ m ls a rest, P m (t.lexeme :: ls) a rest)
    (hP : ∀ ⦃m ls⦄, ls.head? = (lexemes ts).head? → ∀ ⦃a rest⦄,
      P' m (lexemes w ++ t.lexeme :: ls) a rest → ∃ m b rest', P m (t.lexeme :: ls) b rest')
    (hQ : ∀ ⦃ls b⦄, GivesWay (lexemes ts) ls → Q (t.lexeme :: ls) b [] →
      ∃ ls' a, Continues ls ls' ∧ Q' (lexemes w ++ t.lexeme :: ls') a []) :
    Blames stop P' Q' (w ++ t :: ts) err := by
  obtain ⟨u, r, hu, hp, h⟩ := h
  cases u with
  | nil =>
    -- Nothing but the nesting can be wrong with the first token.
    cases hu
    refine ⟨w, t :: ts, rfl, hp, fun hd => ?_⟩
    obtain ⟨m, ls, a, rest, ha⟩ := hs
    have hr := (h hd).1
    exact (@hr m (t.lexeme :: ls) rfl a rest ha).elim
  | cons t' u =>
    obtain ⟨rfl, rfl⟩ := List.cons.inj hu
    have later : Blames stop (fun m ls => P m (t.lexeme :: ls)) (fun ls => Q (t.lexeme :: ls))
        (u ++ r) err := ⟨u, r, rfl, hp, h⟩
    rw [List.append_cons]
    refine later.lift (w ++ [t]) ?_ ?_
    · intro m ls hl a rest ha
      rw [lexemes_concat_append] at ha
      exact hP hl ha
    · intro ls b hg hb
      simp only [lexemes_concat_append]
      exact hQ hg hb

end

/-- The tokens that a step consumes, as the lexemes that a reading consumes. -/
theorem exists_prefix {ts mid : List Token} {u : List Lexeme} (hs : mid <:+ ts)
    (h : lexemes ts = u ++ lexemes mid) : ∃ w, ts = w ++ mid ∧ lexemes w = u := by
  obtain ⟨w, rfl⟩ := hs
  rw [lexemes_append] at h
  exact ⟨w, rfl, List.append_cancel_right h⟩

/-- A symbol that must come first is missing where an error is told. -/
theorem expect_eq_error {stop : Nat} {s : Symbol} {context : Text} {ts : List Token}
    {err : ParseError} (h : expect stop s context ts = .error err) :
    PointsTo stop ts err ∧ (lexemes ts).head? ≠ some (.symbol s) := by
  unfold expect at h
  split at h
  · next s' o r =>
    split at h
    · cases h
    · next hs =>
      refine ⟨pointsTo_refuse h (.inl rfl), ?_⟩
      intro hl
      cases hl
      exact hs rfl
  · refine ⟨pointsTo_refuse h ?_, nofun⟩
    cases isCloser s
    · exact .inl rfl
    · exact .inr trivial
  · next h1 _ =>
    refine ⟨pointsTo_refuse h (.inl rfl), ?_⟩
    intro hl
    obtain ⟨ls, hl⟩ := List.head?_eq_some_iff.mp hl
    obtain ⟨o, r, rfl, -⟩ := lexemes_eq_cons.mp hl
    exact h1 s o r rfl

/-! ### Indices and slices -/

theorem blames_sliceParts {stop i : Nat} {s : Slice} {ts : List Token} {err : ParseError}
    (h : sliceParts stop i s ts = .error err) :
    Blames stop (fun _ => SliceParts i s) (SliceParts i s) ts err := by
  have close : ∀ i s, Completable (SliceParts i s) [] :=
    fun _ _ => ⟨[.symbol .rightBracket], _, rfl, .close⟩
  induction ts generalizing i s with
  | nil =>
    refine .here [] (pointsTo_refuse h (.inr trivial)) ?_ (close i s)
    intro m ls hl a rest hp
    cases hp <;> cases hl
  | cons t ts ih =>
    obtain ⟨l, o⟩ := t
    rw [sliceParts] at h
    split at h
    · cases h
    · next hl =>
      cases hl
      split at h
      · next hi =>
        refine .here [] (pointsTo_refuse h (.inr trivial)) ?_ (close i s)
        intro m ls hl a rest hp
        cases hp with
        | colon hi' => exact hi' hi
        | close | number => cases hl
      · next hi =>
        refine (ih h).lift [⟨.symbol .colon, o⟩] ?_ ?_
        · intro m ls _ a rest hp
          cases hp with
          | colon _ hp => exact ⟨m, a, rest, hp⟩
        · intro ls b _ hp
          exact ⟨ls, b, .refl ls, .colon hi hp⟩
    · next v hl =>
      cases hl
      split at h
      · next hs =>
        refine .here [] (pointsTo_refuse h (.inr trivial)) ?_ (close i s)
        intro m ls hl a rest hp
        cases hp with
        | number hs' =>
          rw [hs'] at hs
          cases hs
        | close | colon => cases hl
      · next hs =>
        refine (ih h).lift [⟨.number v, o⟩] ?_ ?_
        · intro m ls _ a rest hp
          cases hp with
          | number _ hp => exact ⟨m, a, rest, hp⟩
        · intro ls b _ hp
          exact ⟨ls, b, .refl ls, .number (by simpa using hs) hp⟩
    · next h1 h2 h3 =>
      refine .here [] (pointsTo_refuse h (.inr trivial)) ?_ (close i s)
      intro m ls hl a rest hp
      cases hp with
      | close => cases hl; exact h1 rfl
      | colon => cases hl; exact h2 rfl
      | number => cases hl; exact h3 _ rfl

/-- The tokens of an index or a slice, as the grammar reads them before whatever follows. -/
theorem bracket_prefix {stop : Nat} {ts mid : List Token} {a : Atom}
    (ho : startsBracket ts = true) (h : bracket stop ts = .ok (a, mid)) :
    ∃ w, ts = w ++ mid ∧ ∀ ls, Bracket (lexemes w ++ ls) a ls := by
  obtain ⟨t, u, hl, hu⟩ := bracket_append (bracket_sound ho h).1
  obtain ⟨w, rfl, hw⟩ := exists_prefix (leaves_bracket h) hl
  refine ⟨w, rfl, ?_⟩
  rw [hw]
  exact hu

theorem head?_lexemes {l : Lexeme} {ls : List Lexeme} {ts : List Token}
    (h : (l :: ls).head? = (lexemes ts).head?) : ∃ o r, ts = ⟨l, o⟩ :: r := by
  obtain ⟨ls', h⟩ := List.head?_eq_some_iff.mp h.symm
  obtain ⟨o, r, rfl, -⟩ := lexemes_eq_cons.mp h
  exact ⟨o, r, rfl⟩

theorem blames_bracket {stop : Nat} {ts : List Token} {err : ParseError}
    (ho : startsBracket ts = true) (h : bracket stop ts = .error err) :
    Blames stop (fun _ => Bracket) Bracket ts err := by
  match ts, ho with
  | ⟨.symbol .colon, o⟩ :: ts, _ =>
    have h : sliceParts stop 1 ⟨none, none, none⟩ ts = .error err := map_eq_error.mp h
    refine (blames_sliceParts h).lift_cons [] ⟨.symbol .colon, o⟩ ?_ ?_
    · intro m ls a rest hb
      cases hb with
      | slice _ hp =>
        cases hp with
        | colon _ hp => exact ⟨m, _, rest, hp⟩
    · intro ls s hp
      exact ⟨ls, .slice s, .refl ls, .slice rfl (.colon (by decide) hp)⟩
  | ⟨.number i, o⟩ :: ts, _ =>
    unfold bracket at h
    dsimp only at h
    split at h
    · next hc =>
      rw [startsWithColon_eq, startsWith_lexemes] at hc
      obtain ⟨o', ts, rfl⟩ := hc
      have h : sliceParts stop 1 ⟨some i, none, none⟩ ts = .error err := map_eq_error.mp h
      refine (blames_sliceParts h).lift_cons [⟨.number i, o⟩] ⟨.symbol .colon, o'⟩ ?_ ?_
      · intro m ls a rest hb
        cases hb with
        | slice _ hp =>
          cases hp with
          | number _ hp =>
            cases hp with
            | colon _ hp => exact ⟨m, _, rest, hp⟩
      · intro ls s hp
        exact ⟨ls, .slice s, .refl ls, .slice rfl (.number rfl (.colon (by decide) hp))⟩
    · next hc =>
      rw [startsWithColon_eq, Bool.not_eq_true] at hc
      obtain ⟨hp, hl⟩ := expect_eq_error (map_eq_error.mp h)
      refine .here [⟨.number i, o⟩] hp ?_ ⟨[.symbol .rightBracket], _, rfl, .index⟩
      intro m ls hls a rest hb
      cases hb with
      | index => exact hl hls.symm
      | slice ho _ =>
        have hc' : startsWith .colon ls = false := (startsWith_congr hls).trans hc
        exact absurd (hc'.symm.trans ho) Bool.noConfusion

end Grammar
end JsonQuery
