/-
Sources as the grammar sees them.

The parser of sources gives a tree exactly where the grammar reads one from the lexemes that the
source spells, nested within the limit.

* `Spells` — the lexemes of a source;
* `Parses` — the tree of a source, nested within a number of levels;
* `parses_iff` — within the nesting limit this is what `Expr.parse` gives;
* `Spells.parses_iff` — the grammar reads the lexemes of a source just as the source is parsed.
-/
import JsonQuery.Proofs.Grammar.Complete
import JsonQuery.Proofs.Grammar.Local

namespace JsonQuery

open Grammar JsonQuery.Parser

/-- A source consists of some lexemes, whatever blanks stand between them. -/
def Spells (source : Text) (ls : List Lexeme) : Prop :=
  ∃ tokens, Tokens.read source = .ok tokens ∧ lexemes tokens.items = ls

/-- A source is an expression with at most `nesting` expressions one inside the other. -/
def Parses (nesting : Nat) (source : Text) (e : Expr) : Prop :=
  ∃ tokens, Tokens.read source = .ok tokens ∧
    expression tokens.stop tokens.items.length nesting 0 tokens.items = .ok (e, [])

theorem mapError_eq_ok {ε ε' α : Type} {x : Except ε α} {f : ε → ε'} {a : α} :
    x.mapError f = .ok a ↔ x = .ok a := by
  cases x with
  | error _ =>
    constructor
    · intro h
      cases h
    · intro h
      cases h
  | ok _ =>
    constructor
    · intro h
      cases h
      rfl
    · intro h
      cases h
      rfl

theorem ofTokens_eq_ok {tokens : Tokens} {e : Expr} :
    Expr.ofTokens tokens = .ok e ↔
      expression tokens.stop tokens.items.length nestingLimit 0 tokens.items = .ok (e, []) := by
  simp only [Expr.ofTokens, bind_eq_ok, Prod.exists]
  constructor
  · rintro ⟨e', rest, he, h⟩
    split at h
    · cases h
      exact he
    · split at h <;> exact absurd h refuse_ne_ok
    · exact absurd h refuse_ne_ok
  · intro h
    exact ⟨e, [], h, rfl⟩

/-- Within the nesting limit a source is the expression that `Expr.parse` gives. -/
theorem parses_iff {source : Text} {e : Expr} :
    Parses nestingLimit source e ↔ Expr.parse source = .ok e := by
  simp only [Parses, Expr.parse, bind_eq_ok, mapError_eq_ok, ofTokens_eq_ok]

/-- The grammar reads the lexemes of a source just as the source is parsed. -/
theorem Spells.parses_iff {nesting : Nat} {source : Text} {ls : List Lexeme} {b : Expr}
    (hs : Spells source ls) :
    (∃ e, Parses nesting source e ∧ e.bare = b) ↔ Reads nesting 0 ls b [] := by
  obtain ⟨tokens, ht, rfl⟩ := hs
  constructor
  · rintro ⟨e, ⟨tokens', ht', he⟩, rfl⟩
    rw [ht] at ht'
    cases ht'
    exact (sound_expression _ _ nesting (Nat.le_refl _) he).1
  · intro h
    have complete := complete_expression tokens.stop tokens.items.length nesting
    obtain ⟨e, rest, he, hv, hr, -⟩ := complete.gives (Nat.le_refl _) h
    obtain rfl : rest = [] := List.map_eq_nil_iff.mp hr
    exact ⟨e, ⟨tokens, ht, he⟩, hv⟩

theorem Spells.parse_iff {source : Text} {ls : List Lexeme} {b : Expr} (hs : Spells source ls) :
    (∃ e, Expr.parse source = .ok e ∧ e.bare = b) ↔ Reads nestingLimit 0 ls b [] := by
  rw [← hs.parses_iff]
  simp only [JsonQuery.parses_iff]

/-- The bare tree that some lexemes make up by themselves, nested within a number of levels. -/
def Expr.ofLexemes? (nesting : Nat) (ls : List Lexeme) : Option Expr :=
  match expression 0 ls.length nesting 0 (plain ls) with
  | .ok (e, []) => some e.bare
  | _ => none

theorem length_plain (ls : List Lexeme) : (plain ls).length = ls.length :=
  List.length_map _

theorem ofLexemes?_eq_some {nesting : Nat} {ls : List Lexeme} {b : Expr} :
    Expr.ofLexemes? nesting ls = some b ↔ Reads nesting 0 ls b [] := by
  have hb : (plain ls).length ≤ ls.length := Nat.le_of_eq (length_plain ls)
  constructor
  · intro h
    unfold Expr.ofLexemes? at h
    split at h
    · next e he =>
      cases h
      have hr := (sound_expression 0 ls.length nesting hb he).1
      rwa [lexemes_plain] at hr
    · cases h
  · intro h
    rw [← lexemes_plain ls] at h
    obtain ⟨e, rest, he, rfl, hr, -⟩ := (complete_expression 0 ls.length nesting).gives hb h
    obtain rfl : rest = [] := List.map_eq_nil_iff.mp hr
    rw [Expr.ofLexemes?, he]

/-- Some lexemes are an expression by themselves, however deeply it is nested. -/
def Whole (ls : List Lexeme) : Prop :=
  ∃ nesting, (Expr.ofLexemes? nesting ls).isSome

theorem whole_iff {ls : List Lexeme} : Whole ls ↔ ∃ n e, Reads n 0 ls e [] := by
  simp only [Whole, Option.isSome_iff_exists, ofLexemes?_eq_some]

/-- An expression that is read before a lexeme that binds nothing ends there. -/
theorem Whole.rest_eq {n : Nat} {ls ts rest : List Lexeme} {t : Lexeme} {e : Expr}
    (hw : Whole ls) (ht : t.power = 0) (h : Reads n 0 (ls ++ t :: ts) e rest) :
    rest = t :: ts := by
  obtain ⟨m, e', h'⟩ := whole_iff.mp hw
  obtain ⟨l, u, hls, hu⟩ := local_reads m h'
  rw [List.append_nil] at hls
  subst hls
  exact (reads_unique h (hu (t :: ts) (.inr ht))).2

end JsonQuery
