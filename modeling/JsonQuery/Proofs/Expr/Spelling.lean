/-
How trees are written.

Every operand stands in parentheses, names and keys stand in quotes and literals between marks,
so nothing has to be known about what stands around a tree.

* `Expr.spelling`, `Expr.text` — the lexemes of a tree, and its text;
* `Expr.Writable` — the trees that can be written;
* `Expr.nesting` — how many expressions stand one inside the other in the text of a tree;
* `Expr.unsigned` — a tree with the zeros of its literals positive;
* `Expr.Writable.freeStanding` — the lexemes of a tree can be written before any others.
-/
import JsonQuery.Proofs.Infix
import JsonQuery.Proofs.Token.Write

namespace JsonQuery

/-! ### Spellings -/

/-- Lexemes in parentheses. -/
def grouped (ls : List Lexeme) : List Lexeme :=
  .symbol .leftParen :: (ls ++ [.symbol .rightParen])

/-- Lexemes with commas between them. -/
def separated : List (List Lexeme) → List Lexeme
  | [] => []
  | ls :: rest => commas ls rest

namespace Expr

/-- Whether a node is written in brackets of its own. -/
def isBracketed : Expr → Bool
  | .atom (.index _) _ | .atom (.slice _) _ => true
  | _ => false

/-- Whether a tree is written as a projection of items already. -/
def startsProjection : Expr → Bool
  | .unary .flatten _ _ => true
  | .binary .step _ (.atom (.slice _) _) _ => true
  | _ => false

/-- Whether a tree selects several values at once. -/
def selects : Expr → Bool
  | .list _ _ | .hash _ _ => true
  | _ => false

mutual

/-- The lexemes that a tree is written with.  What projections do with each value is left out, as
it is the value itself in the trees that can be written. -/
def spelling : Expr → List Lexeme
  | .atom .identity _ => []
  | .atom .current _ => [.symbol .current]
  | .atom (.field name) _ => [.quotedIdentifier name]
  | .atom (.literal value) _ => [.literal value]
  | .atom (.index i) _ => [.symbol .leftBracket, .number i, .symbol .rightBracket]
  | .atom (.slice s) _ =>
    .symbol .leftBracket ::
      (sliceLexemes s.start s.stop (some s.step) ++ [.symbol .rightBracket])
  | .unary .flatten a _ => grouped (spelling a) ++ [.symbol .flatten]
  | .unary .not a _ => .symbol .not :: grouped (spelling a)
  | .unary .reference a _ => .symbol .ampersand :: grouped (spelling a)
  | .binary .eachItem a _ _ =>
    if a.startsProjection then spelling a
    else grouped (spelling a) ++ [.symbol .leftBracket, .symbol .star, .symbol .rightBracket]
  | .binary .eachValue a _ _ => grouped (spelling a) ++ [.symbol .dot, .symbol .star]
  | .binary .step a b _ =>
    grouped (spelling a) ++
      if b.isBracketed then spelling b else .symbol .dot :: spelling b
  | .binary .pipe a b _ => grouped (spelling a) ++ .symbol .pipe :: grouped (spelling b)
  | .binary .or a b _ => grouped (spelling a) ++ .symbol .or :: grouped (spelling b)
  | .binary .and a b _ => grouped (spelling a) ++ .symbol .and :: grouped (spelling b)
  | .binary (.compare c) a b _ =>
    grouped (spelling a) ++ .symbol (Joint.compare c).symbol :: grouped (spelling b)
  | .filter a p _ _ =>
    grouped (spelling a) ++ .symbol .filter :: (grouped (spelling p) ++ [.symbol .rightBracket])
  | .list as _ => .symbol .leftBracket :: (separated (spellings as) ++ [.symbol .rightBracket])
  | .hash ps _ =>
    .symbol .leftBrace :: (separated (pairSpellings ps) ++ [.symbol .rightBrace])
  | .call f as _ =>
    .identifier f :: .symbol .leftParen :: (separated (spellings as) ++ [.symbol .rightParen])

/-- The lexemes of some trees, each in parentheses. -/
def spellings : List Expr → List (List Lexeme)
  | [] => []
  | a :: as => grouped (spelling a) :: spellings as

/-- The lexemes of some keyed trees. -/
def pairSpellings : List (Text × Expr) → List (List Lexeme)
  | [] => []
  | (k, a) :: ps =>
    (.quotedIdentifier k :: .symbol .colon :: grouped (spelling a)) :: pairSpellings ps

end

/-- A tree as it is written. -/
def text (e : Expr) : Text :=
  e.spelling.flatMap Lexeme.text

/-! ### What can be written -/

/-- Trees that may follow a step, as far as their roots tell. -/
def Selector : Expr → Prop
  | .atom (.field _) _ => True
  | .atom (.index i) _ => (Lexeme.number i).Writable
  | .list as _ => as ≠ []
  | .hash ps _ => ps ≠ []
  | .call f _ _ => f.isIdentifier = true
  | _ => False

/-- The trees that can be written. -/
inductive Writable : Expr → Prop
  | selector {b} : b.Selector → (∀ c ∈ b.children, Writable c) → Writable b
  | current {o} : Writable (.atom .current o)
  | literal {v o} : (Lexeme.literal v).Writable → Writable (.atom (.literal v) o)
  | not {a o} : Writable a → Writable (.unary .not a o)
  | reference {a o} : Writable a → Writable (.unary .reference a o)
  | infixed {a b o} (j : Joint) : Writable a → Writable b → Writable (.binary j.op a b o)
  | step {a b o} : Writable a → b.Selector → (∀ c ∈ b.children, Writable c) →
      Writable (.binary .step a b o)
  | items {a o o'} : Writable a → Writable (.binary .eachItem a (.atom .identity o') o)
  | slice {a s o o' o'' o'''} : Writable a →
      (∀ part ∈ [s.start, s.stop, s.step], ∀ i ∈ part, (Lexeme.number i).Writable) →
      Writable (.binary .eachItem (.binary .step a (.atom (.slice s) o''') o'')
        (.atom .identity o') o)
  | flatten {a o o' o''} : Writable a →
      Writable (.binary .eachItem (.unary .flatten a o'') (.atom .identity o') o)
  | values {a o o'} : Writable a → Writable (.binary .eachValue a (.atom .identity o') o)
  | filter {a p o o'} : Writable a → Writable p → Writable (.filter a p (.atom .identity o') o)

mutual

/-- How many expressions stand one inside the other in the text of a tree. -/
def nesting : Expr → Nat
  | .atom _ _ => 1
  | .unary .flatten a _ => nesting a + 1
  | .unary .not a _ => nesting a + 2
  | .unary .reference a _ => nesting a + 2
  | .binary .eachItem a _ _ => if a.startsProjection then nesting a else nesting a + 1
  | .binary .eachValue a _ _ => nesting a + 1
  | .binary .step a b _ => max (nesting a + 1) (if b.selects then nesting b else nesting b + 1)
  | .binary _ a b _ => max (nesting a + 1) (nesting b + 2)
  | .filter a p _ _ => max (nesting a + 1) (nesting p + 2)
  | .list as _ => nestingList as + 1
  | .hash ps _ => nestingPairs ps + 1
  | .call _ as _ => nestingList as + 1

/-- The levels that some trees in parentheses need. -/
def nestingList : List Expr → Nat
  | [] => 0
  | a :: as => max (nesting a + 1) (nestingList as)

/-- The levels that some keyed trees in parentheses need. -/
def nestingPairs : List (Text × Expr) → Nat
  | [] => 0
  | (_, a) :: ps => max (nesting a + 1) (nestingPairs ps)

end

theorem Writable.startsProjection {e : Expr} (h : e.Writable) : e.startsProjection = false := by
  cases h with
  | selector hb _ =>
    cases e with
    | unary _ _ => exact hb.elim
    | binary _ _ _ => exact hb.elim
    | _ => rfl
  | infixed j => cases j <;> rfl
  | @step a b _ _ hb _ =>
    cases b with
    | atom x => cases x <;> first | rfl | exact hb.elim
    | _ => rfl
  | _ => rfl

theorem spelling_infixed (j : Joint) (a b : Expr) (o : Nat) :
    (Expr.binary j.op a b o).spelling =
      grouped a.spelling ++ .symbol j.symbol :: grouped b.spelling := by
  cases j <;> rfl

theorem nesting_infixed (j : Joint) (a b : Expr) (o : Nat) :
    (Expr.binary j.op a b o).nesting = max (a.nesting + 1) (b.nesting + 2) := by
  cases j <;> rfl

theorem spelling_flatten (a b : Expr) (o o' : Nat) :
    (Expr.binary .eachItem (.unary .flatten a o') b o).spelling =
      grouped a.spelling ++ [.symbol .flatten] :=
  rfl

theorem spelling_slice (a b : Expr) (s : Slice) (o o' o'' : Nat) :
    (Expr.binary .eachItem (.binary .step a (.atom (.slice s) o'') o') b o).spelling =
      grouped a.spelling ++ .symbol .leftBracket ::
        (sliceLexemes s.start s.stop (some s.step) ++ [.symbol .rightBracket]) :=
  rfl

theorem nesting_slice (a b : Expr) (s : Slice) (o o' o'' : Nat) :
    (Expr.binary .eachItem (.binary .step a (.atom (.slice s) o'') o') b o).nesting =
      max (a.nesting + 1) 2 :=
  rfl

end Expr

/-! ### Spellings stand anywhere -/

namespace FreeStanding
variable {ls ts : List Lexeme}

theorem grouped (h : FreeStanding ls) : FreeStanding (grouped ls) :=
  h.delimited rfl rfl

/-- Any symbol ends before a parenthesis. -/
theorem symbol_grouped (s : Symbol) (h : FreeStanding ls) :
    FreeStanding (.symbol s :: JsonQuery.grouped ls) := by
  refine cons trivial (Lexeme.endsBefore_cons ?_ _) (by decide) h.grouped
  cases s <;> rfl

theorem separated {items : List (List Lexeme)} (h : ∀ ls ∈ items, FreeStanding ls) :
    FreeStanding (separated items) := by
  match items with
  | [] => exact nil
  | first :: rest =>
    obtain ⟨hf, hr⟩ := List.forall_mem_cons.mp h
    rw [JsonQuery.separated]
    induction rest generalizing first with
    | nil => exact hf
    | cons next rest ih =>
      obtain ⟨hn, hr'⟩ := List.forall_mem_cons.mp hr
      exact hf.append ((symbol (s := .comma) rfl).append (ih next hr hn hr'))

theorem bracket_number {i : Int} (h : FreeStanding (.number i :: ts)) :
    FreeStanding (.symbol .leftBracket :: .number i :: ts) := by
  have hn : ∀ c ∈ Text.ofInt i, c ≠ .scalar ']' ∧ c ≠ .scalar '?' := by
    intro c hc
    have := NumeralText.ofInt i c hc
    constructor <;>
      · rintro rfl
        exact absurd this (by decide)
  refine cons trivial ?_ ?_ h
  · intro c hc
    obtain ⟨h1, h2⟩ := hn c (List.mem_of_mem_head? hc)
    simp [Lexeme.goesOn, Symbol.growth, h1.symm, h2.symm]
  · cases i with
    | ofNat n => exact Text.ofNat_ne_nil n
    | negSucc n => exact List.cons_ne_nil _ _

/-- A part of a slice ends before a symbol that starts with no digit. -/
theorem part_symbol {v : Option Int} (hv : ∀ i ∈ v, (Lexeme.number i).Writable) {s : Symbol}
    (hs : s.growth = []) (hd : (Lexeme.number 0).EndsBefore s.text)
    (hn : Text.ofString s.text ≠ []) : FreeStanding (partLexemes v ++ [.symbol s]) := by
  cases v with
  | none => exact symbol hs
  | some i => exact cons (hv i rfl) hd hn (symbol hs)

theorem sliceLexemes {s : Slice}
    (h : ∀ part ∈ [s.start, s.stop, s.step], ∀ i ∈ part, (Lexeme.number i).Writable) :
    FreeStanding (.symbol .leftBracket ::
      (sliceLexemes s.start s.stop (some s.step) ++ [.symbol .rightBracket])) := by
  obtain ⟨start, stop, step⟩ := s
  have colon {v : Option Int} (hv : v ∈ [start, stop, step]) :
      FreeStanding (partLexemes v ++ [.symbol .colon]) :=
    part_symbol (h v hv) rfl (Lexeme.endsBefore_cons rfl _) (by decide)
  have hparts : FreeStanding
      (JsonQuery.sliceLexemes start stop (some step) ++ [.symbol .rightBracket]) := by
    have hstep := part_symbol (h step (by simp)) (s := .rightBracket) rfl
      (Lexeme.endsBefore_cons rfl _) (by decide)
    have := (colon (v := start) (by simp)).append ((colon (v := stop) (by simp)).append hstep)
    simpa [JsonQuery.sliceLexemes] using this
  cases start with
  | none => exact cons trivial (Lexeme.endsBefore_cons rfl _) (by decide) hparts
  | some i => exact bracket_number hparts

end FreeStanding

namespace Expr

theorem mem_spellings {as : List Expr} {ls : List Lexeme} (h : ls ∈ spellings as) :
    ∃ a ∈ as, ls = grouped a.spelling := by
  induction as with
  | nil => cases h
  | cons a as ih =>
    rcases List.mem_cons.mp h with rfl | h
    · exact ⟨a, List.mem_cons_self, rfl⟩
    · obtain ⟨b, hb, rfl⟩ := ih h
      exact ⟨b, List.mem_cons_of_mem _ hb, rfl⟩

theorem mem_pairSpellings {ps : List (Text × Expr)} {ls : List Lexeme}
    (h : ls ∈ pairSpellings ps) :
    ∃ p ∈ ps, ls = .quotedIdentifier p.1 :: .symbol .colon :: grouped p.2.spelling := by
  induction ps with
  | nil => cases h
  | cons p ps ih =>
    rcases List.mem_cons.mp h with rfl | h
    · exact ⟨p, List.mem_cons_self, rfl⟩
    · obtain ⟨q, hq, rfl⟩ := ih h
      exact ⟨q, List.mem_cons_of_mem _ hq, rfl⟩

/-- Some trees start with the parenthesis of the first of them. -/
theorem exists_separated_spellings {as : List Expr} (h : as ≠ []) :
    ∃ ts, separated (spellings as) = .symbol .leftParen :: ts := by
  match as, h with
  | [_], _ => exact ⟨_, rfl⟩
  | _ :: _ :: _, _ => exact ⟨_, rfl⟩

theorem freeStanding_spellings {as : List Expr} (h : ∀ a ∈ as, FreeStanding a.spelling) :
    FreeStanding (separated (spellings as)) := by
  refine .separated fun ls hls => ?_
  obtain ⟨a, ha, rfl⟩ := mem_spellings hls
  exact (h a ha).grouped

theorem freeStanding_pairSpellings {ps : List (Text × Expr)}
    (h : ∀ p ∈ ps, FreeStanding p.2.spelling) : FreeStanding (separated (pairSpellings ps)) := by
  refine .separated fun ls hls => ?_
  obtain ⟨p, hp, rfl⟩ := mem_pairSpellings hls
  exact (FreeStanding.quotedIdentifier p.1).append
    ((FreeStanding.symbol (s := .colon) rfl).append (h p hp).grouped)

theorem Selector.freeStanding {b : Expr} (hb : b.Selector)
    (h : ∀ c ∈ b.children, FreeStanding c.spelling) : FreeStanding b.spelling := by
  cases b with
  | atom x =>
    cases x with
    | field name => exact .quotedIdentifier name
    | index i => exact
      .bracket_number (.cons hb (Lexeme.endsBefore_cons rfl _) (by decide) (.symbol rfl))
    | identity | current | slice _ | literal _ => exact hb.elim
  | list as =>
    have hs := (freeStanding_spellings h).append (.symbol (s := .rightBracket) rfl)
    obtain ⟨ts, hts⟩ := exists_separated_spellings hb
    rw [children, hts] at hs
    rw [spelling, hts]
    exact .cons trivial (Lexeme.endsBefore_cons rfl _) (by decide) hs
  | hash ps =>
    refine (freeStanding_pairSpellings fun p hp => h p.2 ?_).delimited rfl rfl
    exact List.mem_map_of_mem hp
  | call f as =>
    exact .cons hb (Lexeme.endsBefore_cons rfl _) (by decide)
      ((freeStanding_spellings h).delimited rfl rfl)
  | unary | binary | filter => exact hb.elim

/-- The lexemes of a tree can be written before any others. -/
theorem Writable.freeStanding {e : Expr} (h : e.Writable) : FreeStanding e.spelling := by
  induction h with
  | selector hb _ ih => exact hb.freeStanding ih
  | current => exact .symbol rfl
  | literal hv => exact .single hv fun _ => rfl
  | not _ ih => exact .symbol_grouped .not ih
  | reference _ ih => exact .symbol_grouped .ampersand ih
  | infixed j _ _ iha ihb =>
    rw [spelling_infixed]
    exact iha.grouped.append (.symbol_grouped j.symbol ihb)
  | @step a b o _ hb _ iha ihb =>
    rw [spelling]
    refine iha.grouped.append ?_
    split
    · exact hb.freeStanding ihb
    · exact (FreeStanding.symbol (s := .dot) rfl).append (hb.freeStanding ihb)
  | items ha ih =>
    rw [spelling, if_neg (by rw [ha.startsProjection]; exact Bool.false_ne_true)]
    refine ih.grouped.append (.cons trivial (Lexeme.endsBefore_cons rfl _) (by decide) ?_)
    exact (FreeStanding.symbol (s := .star) rfl).append (.symbol rfl)
  | slice _ hs ih => exact ih.grouped.append (.sliceLexemes hs)
  | flatten _ ih => exact ih.grouped.append (.symbol rfl)
  | values _ ih =>
    exact ih.grouped.append ((FreeStanding.symbol (s := .dot) rfl).append (.symbol rfl))
  | filter _ _ iha ihp =>
    exact iha.grouped.append
      ((FreeStanding.symbol_grouped .filter ihp).append (.symbol (s := .rightBracket) rfl))

end Expr
end JsonQuery
