/-
The grammar of expressions.

A production relates the lexemes that it starts at to the tree that it reads from them and to the
lexemes after it.  Trees are bare and lexemes have no place, so the grammar does not know where in
a source anything stands.  What is nested in a production is read by a relation `S`, just as the
parser is given a parser for it; `Reads` closes the circle level by level.

* `Grammar.Operand`, `Grammar.Extension` — what starts an expression, and what may follow;
* `Grammar.Projected` — the right side of a projection;
* `Grammar.Reads` — what an expression reads, nested within a number of levels.
-/
import JsonQuery.Expr.Parser

namespace JsonQuery

/-- The offset does not tell what kind of node a tree is. -/
@[simp] theorem Expr.isIdentity_bare (e : Expr) :
    Parser.isIdentity e.bare = Parser.isIdentity e := by
  cases e <;> simp only [bare, Parser.isIdentity]
  case atom a _ => cases a <;> rfl

namespace Grammar

open JsonQuery.Parser

/-- What expressions read: those whose operators bind more tightly than a power. -/
abbrev Reading := Nat → List Lexeme → Expr → List Lexeme → Prop

/-- How tightly the first lexeme binds; the end binds nothing. -/
def headPower : List Lexeme → Nat
  | [] => 0
  | t :: _ => t.power

/-- Whether a symbol comes first. -/
def startsWith (s : Symbol) : List Lexeme → Bool
  | .symbol s' :: _ => s' = s
  | _ => false

theorem startsWith_iff {s : Symbol} {r : List Lexeme} :
    startsWith s r = true ↔ ∃ r', r = .symbol s :: r' := by
  match r with
  | [] => simp [startsWith]
  | .symbol s' :: r' => simp [startsWith]
  | .identifier _ :: _ | .quotedIdentifier _ :: _ | .rawString _ :: _ | .literal _ :: _
  | .number _ :: _ => simp [startsWith]

/-- Whether a comparison operator comes first. -/
def compares : List Lexeme → Bool
  | .symbol s :: _ => (comparator? s).isSome
  | _ => false

/-- Whether an index or a slice comes first, its bracket left out. -/
def opensIndex : List Lexeme → Bool
  | .number _ :: _ => true
  | ts => startsWith .colon ts

/-- Whether a slice comes first, its bracket left out. -/
def opensSlice : List Lexeme → Bool
  | .number _ :: ts => startsWith .colon ts
  | ts => startsWith .colon ts

/-- Whether the sign for all items comes first, its bracket left out. -/
def opensItems : List Lexeme → Bool
  | .symbol .star :: ts => startsWith .rightBracket ts
  | _ => false

/-- Whether a lexeme may follow a dot as the start of an expression. -/
def followsDot : Lexeme → Bool
  | .identifier _ => true
  | .quotedIdentifier _ => true
  | .symbol .star => true
  | _ => false

/-- The operator of a symbol between two expressions, comparisons aside. -/
def infixOp? : Symbol → Option BinaryOp
  | .pipe => some .pipe
  | .or => some .or
  | .and => some .and
  | _ => none

/-- An index or a slice of what stands before its bracket. -/
def indexed (left : Expr) (a : Atom) : Expr :=
  if isIdentity left then .atom a 0 else .binary .step left (.atom a 0) 0

/-- The current value where the source leaves it out. -/
def implicit : Expr := .atom .identity 0

/-- The rest of a slice, given its parts so far and the index of the next part. -/
inductive SliceParts : Nat → Slice → List Lexeme → Slice → List Lexeme → Prop
  | close {i s rest} : SliceParts i s (.symbol .rightBracket :: rest) s rest
  | colon {i s ts r rest} : i ≠ 2 → SliceParts (i + 1) s ts r rest →
      SliceParts i s (.symbol .colon :: ts) r rest
  | number {i s v ts r rest} : slicePart s i = none →
      SliceParts i (setSlicePart s v i) ts r rest →
      SliceParts i s (.number v :: ts) r rest

/-- An index or a slice after its bracket. -/
inductive Bracket : List Lexeme → Atom → List Lexeme → Prop
  | index {i rest} : Bracket (.number i :: .symbol .rightBracket :: rest) (.index i) rest
  | slice {ts s rest} : opensSlice ts = true → SliceParts 0 ⟨none, none, none⟩ ts s rest →
      Bracket ts (.slice s) rest

section
variable (S : Reading)

/-- The elements of a list, up to its closing bracket. -/
inductive Elements : List Lexeme → List Expr → List Lexeme → Prop
  | last {ts e rest} : S 0 ts e (.symbol .rightBracket :: rest) → Elements ts [e] rest
  | more {ts e mid es rest} : S 0 ts e (.symbol .comma :: mid) → Elements mid es rest →
      Elements ts (e :: es) rest

/-- The pairs of a hash, up to its closing brace. -/
inductive Pairs : List Lexeme → List (Text × Expr) → List Lexeme → Prop
  | last {t key ts e rest} : key? t = some key → S 0 ts e (.symbol .rightBrace :: rest) →
      Pairs (t :: .symbol .colon :: ts) [(key, e)] rest
  | more {t key ts e mid ps rest} : key? t = some key → S 0 ts e (.symbol .comma :: mid) →
      Pairs mid ps rest → Pairs (t :: .symbol .colon :: ts) ((key, e) :: ps) rest

/-- The arguments of a call, up to its closing parenthesis. -/
inductive Arguments : List Lexeme → List Expr → List Lexeme → Prop
  | none {rest} : Arguments (.symbol .rightParen :: rest) [] rest
  | last {ts e rest} : S 0 ts e (.symbol .rightParen :: rest) → Arguments ts [e] rest
  | more {ts e mid es rest} : S 0 ts e (.symbol .comma :: mid) →
      startsWith .rightParen mid = false → Arguments mid es rest →
      Arguments ts (e :: es) rest

/-- What follows a dot. -/
inductive AfterDot (least : Nat) : List Lexeme → Expr → List Lexeme → Prop
  | expr {t ts e rest} : followsDot t = true → S least (t :: ts) e rest →
      AfterDot least (t :: ts) e rest
  | list {ts es rest} : Elements S ts es rest →
      AfterDot least (.symbol .leftBracket :: ts) (.list es 0) rest
  | hash {ts ps rest} : Pairs S ts ps rest →
      AfterDot least (.symbol .leftBrace :: ts) (.hash ps 0) rest

/-- The right side of a projection. -/
inductive Projected (least : Nat) : List Lexeme → Expr → List Lexeme → Prop
  | stop {ts} : headPower ts < projectionStop → Projected least ts implicit ts
  | bracket {ts e rest} : S least (.symbol .leftBracket :: ts) e rest →
      Projected least (.symbol .leftBracket :: ts) e rest
  | filter {ts e rest} : S least (.symbol .filter :: ts) e rest →
      Projected least (.symbol .filter :: ts) e rest
  | dot {ts e rest} : AfterDot S least ts e rest →
      Projected least (.symbol .dot :: ts) e rest

/-- An index or a slice of what stands before its bracket; a slice projects its items. -/
inductive Bracketed (left : Expr) : List Lexeme → Expr → List Lexeme → Prop
  | index {ts i rest} : Bracket ts (.index i) rest →
      Bracketed left ts (indexed left (.index i)) rest
  | slice {ts s mid right rest} : Bracket ts (.slice s) mid →
      Projected S starPower mid right rest →
      Bracketed left ts (.binary .eachItem (indexed left (.slice s)) right 0) rest

/-- A filter of what stands before its bracket, after that bracket. -/
inductive Filtered (left : Expr) : List Lexeme → Expr → List Lexeme → Prop
  | intro {ts p mid right rest} : S 0 ts p (.symbol .rightBracket :: mid) →
      Projected S (Lexeme.power (.symbol .filter)) mid right rest →
      Filtered left ts (.filter left p right 0) rest

/-- The operand that an expression starts with. -/
inductive Operand : List Lexeme → Expr → List Lexeme → Prop
  | identifier {name ts} : Operand (.identifier name :: ts) (.atom (.field name) 0) ts
  | quotedIdentifier {name ts} : startsWith .leftParen ts = false →
      Operand (.quotedIdentifier name :: ts) (.atom (.field name) 0) ts
  | rawString {text ts} : Operand (.rawString text :: ts) (.atom (.literal (.str text)) 0) ts
  | literal {value ts} : Operand (.literal value :: ts) (.atom (.literal value) 0) ts
  | current {ts} : Operand (.symbol .current :: ts) (.atom .current 0) ts
  | values {ts right rest} : Projected S starPower ts right rest →
      Operand (.symbol .star :: ts) (.binary .eachValue implicit right 0) rest
  | filter {ts e rest} : Filtered S implicit ts e rest →
      Operand (.symbol .filter :: ts) e rest
  | flatten {ts right rest} : Projected S (Lexeme.power (.symbol .flatten)) ts right rest →
      Operand (.symbol .flatten :: ts)
        (.binary .eachItem (.unary .flatten implicit 0) right 0) rest
  | not {ts e rest} : S (Lexeme.power (.symbol .not)) ts e rest →
      Operand (.symbol .not :: ts) (.unary .not e 0) rest
  | group {ts e rest} : S 0 ts e (.symbol .rightParen :: rest) →
      Operand (.symbol .leftParen :: ts) e rest
  | hash {ts ps rest} : Pairs S ts ps rest →
      Operand (.symbol .leftBrace :: ts) (.hash ps 0) rest
  | reference {ts e rest} : S 0 ts e rest →
      Operand (.symbol .ampersand :: ts) (.unary .reference e 0) rest
  | bracket {ts e rest} : opensIndex ts = true → Bracketed S implicit ts e rest →
      Operand (.symbol .leftBracket :: ts) e rest
  | items {ts right rest} : Projected S starPower ts right rest →
      Operand (.symbol .leftBracket :: .symbol .star :: .symbol .rightBracket :: ts)
        (.binary .eachItem implicit right 0) rest
  | list {ts es rest} : opensIndex ts = false → opensItems ts = false → Elements S ts es rest →
      Operand (.symbol .leftBracket :: ts) (.list es 0) rest

/-- What stands before an operator, extended by it and its right side. -/
inductive Extension : Expr → List Lexeme → Expr → List Lexeme → Prop
  | values {left ts right rest} : Projected S (Lexeme.power (.symbol .dot)) ts right rest →
      Extension left (.symbol .dot :: .symbol .star :: ts)
        (.binary .eachValue left right 0) rest
  | step {left ts right rest} : startsWith .star ts = false →
      AfterDot S (Lexeme.power (.symbol .dot)) ts right rest →
      Extension left (.symbol .dot :: ts) (.binary .step left right 0) rest
  | bracket {left ts e rest} : opensIndex ts = true → Bracketed S left ts e rest →
      Extension left (.symbol .leftBracket :: ts) e rest
  | items {left ts right rest} : Projected S starPower ts right rest →
      Extension left (.symbol .leftBracket :: .symbol .star :: .symbol .rightBracket :: ts)
        (.binary .eachItem left right 0) rest
  | filter {left ts e rest} : Filtered S left ts e rest →
      Extension left (.symbol .filter :: ts) e rest
  | flatten {left ts right rest} : Projected S (Lexeme.power (.symbol .flatten)) ts right rest →
      Extension left (.symbol .flatten :: ts)
        (.binary .eachItem (.unary .flatten left 0) right 0) rest
  | infixed {left s op ts right rest} : infixOp? s = some op →
      S (Lexeme.power (.symbol s)) ts right rest →
      Extension left (.symbol s :: ts) (.binary op left right 0) rest
  | compare {left s c ts right rest} : comparator? s = some c →
      S (Lexeme.power (.symbol s)) ts right rest → compares rest = false →
      Extension left (.symbol s :: ts) (.binary (.compare c) left right 0) rest
  | call {name ts args rest} : Arguments S ts args rest →
      Extension (.atom (.field name) 0) (.symbol .leftParen :: ts) (.call name args 0) rest

/-- What stands before some operators, extended by those that bind more tightly than a power. -/
inductive Operators (least : Nat) : Expr → List Lexeme → Expr → List Lexeme → Prop
  | stop {left ts} : headPower ts ≤ least → Operators least left ts left ts
  | more {left ts e mid r rest} : least < headPower ts → Extension S left ts e mid →
      Operators least e mid r rest → Operators least left ts r rest

end

/-- What an expression reads when at most `n` expressions stand one inside the other. -/
def Reads : (n : Nat) → (least : Nat) → List Lexeme → Expr → List Lexeme → Prop
  | 0, _, _, _, _ => False
  | n + 1, least, ts, e, rest =>
    ∃ left mid, Operand (Reads n) ts left mid ∧ Operators (Reads n) least left mid e rest

end Grammar
end JsonQuery
