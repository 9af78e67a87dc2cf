/-
What compiling a source comes to.

A source gives a query or an error that tells its place in the source; there is no third outcome,
apart from an integer that has too many digits to be read and a limit that is too low.

* `parse_eq_ofTokens`, `Query.compile_eq_ok` — the tree and the queries of a source;
* `QueryError.LocatedIn` — an error is told where its kind can be in a source;
* `compile_outcome` — the outcomes of compiling a source.
-/
import JsonQuery.Proofs.Grammar.Bound
import JsonQuery.Proofs.Grammar.Fault
import JsonQuery.Query

namespace JsonQuery

open Grammar JsonQuery.Parser

/-- The tree of a source is that of its tokens, and its errors know it. -/
theorem parse_eq_ofTokens {source : Text} {tokens : Tokens}
    (h : Tokens.ofSource source = .ok tokens) :
    Expr.parse source =
      (Expr.ofTokens tokens).mapError fun e => .query (e.toQueryError.attach source) := by
  rw [Expr.parse, Tokens.read, h]
  rfl

/-- The queries of a source are its tree with a limit that is not too low. -/
theorem Query.compile_eq_ok {source : Text} {registry : Option Registry} {limit : Int} {q : Query} :
    compile source registry limit = .ok q ↔
      ∃ e, Expr.parse source = .ok e ∧ ∃ h, q = ⟨source, some e, registry, limit, h⟩ := by
  rw [compile, Grammar.bind_eq_ok]
  refine exists_congr fun e => ?_
  rw [mapError_eq_ok, ofExpr]
  refine and_congr_right fun _ => ?_
  by_cases h : 1 ≤ limit
  · rw [dif_pos h]
    exact ⟨fun hq => ⟨h, (Except.ok.inj hq).symm⟩, fun ⟨_, hq⟩ => congrArg _ hq.symm⟩
  · rw [dif_neg h]
    exact ⟨nofun, fun ⟨h', _⟩ => absurd h' h⟩

/-- An error that knows a source and is told where its kind can be in it: at a code point, at the
start of a token, or at the end. -/
def QueryError.LocatedIn (e : QueryError) (source : Text) : Prop :=
  e.source = some source ∧
    match e.cause with
    | .lex problem _ => ∃ (i : Nat) (c : CodePoint),
        e.offset = i ∧ source[i]? = some c ∧ problem.Marks c
    | .parse problem _ _ => ∃ tokens, Tokens.ofSource source = .ok tokens ∧
        (e.offset = source.length ∧ problem.AtEnd ∨
          ∃ t ∈ tokens.items, e.offset = t.offset ∧ t.offset < source.length ∧
            problem.At t.lexeme)
    | .other _ | .eval _ | .otherEval _ => False

theorem located_lexError {source : Text} {e : LexError} (h : e.In 0 source) :
    (e.toQueryError.attach source).LocatedIn source := by
  obtain ⟨u, c, v, rfl, ho, hm⟩ := h
  refine ⟨rfl, u.length, c, ?_, ?_, hm⟩
  · show (e.offset : Int) = u.length
    rw [ho, Nat.zero_add]
  · rw [List.getElem?_append_right (Nat.le_refl _), Nat.sub_self]
    rfl

/-- A problem that suits the end of some tokens may be found where that end starts. -/
theorem located_parseError {source : Text} {tokens : Tokens} {u r : List Token} {e : ParseError}
    (ht : Tokens.ofSource source = .ok tokens) (hr : tokens.items = u ++ r)
    (h : PointsTo tokens.stop r e) : (e.toQueryError.attach source).LocatedIn source := by
  refine ⟨rfl, tokens, ht, ?_⟩
  have ho : (e.toQueryError.attach source).offset = place tokens.stop r :=
    congrArg Nat.cast h.offset
  cases r with
  | nil =>
    refine .inl ⟨?_, h.suits⟩
    rw [ho, ← Tokens.ofSource_stop ht]
    rfl
  | cons t r =>
    refine .inr ⟨t, ?_, ho, ?_, h.suits⟩
    · rw [hr]
      exact List.mem_append_right u List.mem_cons_self
    · have hi : u.length < tokens.items.length := by
        rw [hr, List.length_append, List.length_cons]
        omega
      have hlt := Tokens.place_lt_stop ht hi
      rwa [Tokens.place_append hr, Tokens.ofSource_stop ht] at hlt

theorem located_parse {source : Text} {e : SourceError} (h : Expr.parse source = .error e) :
    match e with
    | .query e => e.LocatedIn source
    | .tooManyDigits _ => source.HasLongRun := by
  rw [Expr.parse, bind_eq_error] at h
  rcases h with h | ⟨tokens, ht, h⟩
  · obtain ⟨e', he, rfl⟩ := mapError_eq_error.mp h
    have hin := Tokens.ofSource_error he
    cases e' with
    | lex => exact located_lexError hin
    | tooManyDigits => exact hin
  · obtain ⟨e', he, rfl⟩ := mapError_eq_error.mp h
    obtain ⟨u, r, hr, hp, -⟩ := ofTokens_blames he
    exact located_parseError (mapError_eq_ok.mp ht) hr hp

/-- Compiling a source gives a query, or an error that is located in the source.  The only other
outcome is that of a number token with too many digits, apart from a limit that no query has.  The
parser only looks at the tokens that it is given, and no loop of it ends for lack of turns. -/
theorem compile_outcome (source : Text) (registry : Option Registry) (limit : Int) :
    (match Query.compile source registry limit with
      | .ok q => q.source = source ∧ q.expr.isSome
      | .error (.source (.query e)) => e.LocatedIn source
      | .error (.source (.tooManyDigits _)) => source.HasLongRun
      | .error .limitTooLow => limit < 1) ∧
    ∀ tokens, Tokens.ofSource source = .ok tokens →
      ∀ bound, tokens.items.length ≤ bound → ∀ nesting least ts, ts <:+ tokens.items →
        expression tokens.stop bound nesting least ts =
          expression tokens.stop tokens.items.length nesting least ts ∧
        ∀ e rest, expression tokens.stop bound nesting least ts = .ok (e, rest) →
          rest <:+ ts ∧ rest.length < ts.length := by
  constructor
  · unfold Query.compile
    cases hp : Expr.parse source with
    | error e =>
      have hl := located_parse hp
      cases e <;> exact hl
    | ok e =>
      by_cases hl : 1 ≤ limit
      · have hq : Query.ofExpr source (some e) registry limit =
            .ok ⟨source, some e, registry, limit, hl⟩ := dif_pos hl
        simp [mapError_ok, bind, Except.bind, hq]
      · have hq : Query.ofExpr source (some e) registry limit = .error .limitTooLow := dif_neg hl
        simp only [mapError_ok, bind, Except.bind, hq]
        exact Int.not_le.mp hl
  · intro tokens _ bound hb nesting least ts hts
    have hlen := hts.length_le
    refine ⟨(expression_bound hlen hb).symm, ?_⟩
    intro e rest he
    exact ⟨leaves_expression bound nesting least ts he,
      (sound_expression tokens.stop bound nesting (Nat.le_trans hlen hb) he).2⟩

end JsonQuery
