/-
Expressions from tokens.

An expression is an operand, followed by operators for as long as they bind more tightly than
the place asks for.  A projection takes the operators after it, down to a fixed power, into its
right side.  Expressions inside expressions count against the nesting limit; a sequence of
operators does not.

* `Parser.expression` — an expression at the start of some tokens, and the tokens after it;
* `Expr.ofTokens` — the expression that all the tokens make up;
* `Expr.parse` — the expression that a source is.
-/
import JsonQuery.Expr
import JsonQuery.Token.Scanner

namespace JsonQuery
namespace Parser

/-- A step of parsing gives a result and the tokens after it. -/
abbrev Step (α : Type) := List Token → Except ParseError (α × List Token)

/-- Operators that bind less tightly than this end a projection. -/
def projectionStop : Nat := 10

/-- How tightly the first token binds; the end of the source ends every expression. -/
def power : List Token → Nat
  | [] => 0
  | t :: _ => t.lexeme.power

/-- The first token as errors tell it. -/
def found : List Token → Text
  | [] => "end of expression"
  | t :: _ => t.lexeme.describe

/-- Where the first token starts; without tokens that is the end of the source. -/
def place (stop : Nat) : List Token → Nat
  | [] => stop
  | t :: _ => t.offset

/-- An error at the first token.  A missing token is not an unexpected one. -/
def refuse {α : Type} (stop : Nat) (problem : ParseProblem) (context : Text)
    (ts : List Token) : Except ParseError α :=
  let problem :=
    if ts.isEmpty && problem == .unexpectedToken then .unexpectedEnd else problem
  .error ⟨problem, found ts, context, place stop ts⟩

/-- Symbols that close a bracket. -/
def isCloser : Symbol → Bool
  | .rightBracket => true
  | .rightParen => true
  | .rightBrace => true
  | _ => false

/-- The tokens after a symbol that must come first. -/
def expect (stop : Nat) (s : Symbol) (context : Text) (ts : List Token) :
    Except ParseError (List Token) :=
  match ts with
  | ⟨.symbol s', offset⟩ :: rest =>
    if s' = s then .ok rest
    else refuse stop .unexpectedToken context (⟨.symbol s', offset⟩ :: rest)
  | [] =>
    refuse stop (if isCloser s then .unmatchedDelimiter else .unexpectedToken) context []
  | ts => refuse stop .unexpectedToken context ts

/-- A part of a slice by its index. -/
def slicePart (s : Slice) : Nat → Option Int
  | 0 => s.start
  | 1 => s.stop
  | _ => s.step

/-- A slice in which a part has a value. -/
def setSlicePart (s : Slice) (value : Int) : Nat → Slice
  | 0 => { s with start := some value }
  | 1 => { s with stop := some value }
  | _ => { s with step := some value }

/-- The rest of a slice up to its bracket, given the parts so far and the index of the next
part. -/
def sliceParts (stop : Nat) (index : Nat) (s : Slice) : Step Slice
  | [] => refuse stop .unmatchedDelimiter "expected ']' to close slice" []
  | t :: ts =>
    match t.lexeme with
    | .symbol .rightBracket => .ok (s, ts)
    | .symbol .colon =>
      if index = 2 then refuse stop .malformedSlice "too many colons in slice" (t :: ts)
      else sliceParts stop (index + 1) s ts
    | .number value =>
      if (slicePart s index).isSome then
        refuse stop .malformedSlice "expected ':' or ']'" (t :: ts)
      else sliceParts stop index (setSlicePart s value index) ts
    | _ => refuse stop .malformedSlice "expected a number, ':' or ']'" (t :: ts)

/-- Whether tokens start with a colon. -/
def startsWithColon : List Token → Bool
  | ⟨.symbol .colon, _⟩ :: _ => true
  | _ => false

/-- An index or a slice after its opening bracket, at the offset of the bracket. -/
def bracket (stop : Nat) : Step Atom := fun ts =>
  match ts with
  | ⟨.number i, offset⟩ :: rest =>
    if startsWithColon rest then
      (sliceParts stop 0 ⟨none, none, none⟩ (⟨.number i, offset⟩ :: rest)).map
        fun (s, rest) => (.slice s, rest)
    else
      (expect stop .rightBracket "expected ']' to close index" rest).map
        fun rest => (.index i, rest)
  | ts =>
    (sliceParts stop 0 ⟨none, none, none⟩ ts).map fun (s, rest) => (.slice s, rest)

/-- Whether tokens start with a number or a colon. -/
def startsBracket : List Token → Bool
  | ⟨.number _, _⟩ :: _ => true
  | ts => startsWithColon ts

section
variable (stop bound : Nat) (sub : Nat → Step Expr)

/-- The elements of a list after its opening bracket or a comma, up to the closing bracket. -/
def elements : (fuel : Nat) → Step (List Expr)
  | 0, ts => refuse stop .unexpectedToken "expected an expression" ts
  | fuel + 1, ts =>
    match ts with
    | ⟨.symbol .rightBracket, _⟩ :: _ =>
      refuse stop .unexpectedToken "expected an expression" ts
    | _ => do
      let (e, rest) ← sub 0 ts
      match rest with
      | ⟨.symbol .rightBracket, _⟩ :: rest => .ok ([e], rest)
      | ⟨.symbol .comma, _⟩ :: rest => do
        let (es, rest) ← elements fuel rest
        .ok (e :: es, rest)
      | [] => refuse stop .unmatchedDelimiter "expected ']'" []
      | rest =>
        refuse stop .unexpectedToken "expected ',' or ']' in multi-select list" rest

/-- A list of expressions after its opening bracket. -/
def multiList (offset : Nat) : Step Expr := fun ts => do
  let (es, rest) ← elements stop sub bound ts
  .ok (.list es offset, rest)

/-- The name that a key of a hash is. -/
def key? : Lexeme → Option Text
  | .identifier name => some name
  | .quotedIdentifier name => some name
  | _ => none

/-- A key and its expression. -/
def pair : Step (Text × Expr)
  | [] => refuse stop .unmatchedDelimiter "expected '\x7d'" []
  | t :: ts =>
    match key? t.lexeme with
    | none =>
      refuse stop .invalidKey "keys must be identifiers or quoted identifiers" (t :: ts)
    | some key => do
      let rest ← expect stop .colon "expected ':' after multi-select hash key" ts
      let (e, rest) ← sub 0 rest
      .ok ((key, e), rest)

/-- The pairs of a hash after its opening brace or a comma, up to the closing brace. -/
def pairs : (fuel : Nat) → Step (List (Text × Expr))
  | 0, ts => refuse stop .unmatchedDelimiter "expected '\x7d'" ts
  | fuel + 1, ts => do
    let (p, rest) ← pair stop sub ts
    match rest with
    | ⟨.symbol .rightBrace, _⟩ :: rest => .ok ([p], rest)
    | ⟨.symbol .comma, _⟩ :: rest => do
      let (ps, rest) ← pairs fuel rest
      .ok (p :: ps, rest)
    | [] => refuse stop .unmatchedDelimiter "expected '\x7d'" []
    | rest =>
      refuse stop .unexpectedToken "expected ',' or '\x7d' in multi-select hash" rest

/-- A hash of expressions after its opening brace. -/
def multiHash (offset : Nat) : Step Expr := fun ts => do
  let (ps, rest) ← pairs stop sub bound ts
  .ok (.hash ps offset, rest)

/-- The arguments of a call after its opening parenthesis or a comma, up to the closing
parenthesis. -/
def arguments (name : Text) : (fuel : Nat) → Step (List Expr)
  | 0, ts =>
    refuse stop .unmatchedDelimiter ("expected ')' to close call to " ++ name) ts
  | fuel + 1, ts =>
    match ts with
    | ⟨.symbol .rightParen, _⟩ :: rest => .ok ([], rest)
    | [] => refuse stop .unmatchedDelimiter ("expected ')' to close call to " ++ name) []
    | ts => do
      let (e, rest) ← sub 0 ts
      match rest with
      | ⟨.symbol .rightParen, _⟩ :: rest => .ok ([e], rest)
      | ⟨.symbol .comma, _⟩ :: ⟨.symbol .rightParen, offset⟩ :: rest =>
        refuse stop .unexpectedToken "expected an argument"
          (⟨.symbol .rightParen, offset⟩ :: rest)
      | ⟨.symbol .comma, _⟩ :: rest => do
        let (es, rest) ← arguments name fuel rest
        .ok (e :: es, rest)
      | rest => refuse stop .unexpectedToken "expected ',' or ')'" rest

/-- What follows a dot: a name, a star, a list or a hash. -/
def afterDot (least : Nat) : Step Expr := fun ts =>
  match ts with
  | ⟨.identifier _, _⟩ :: _ => sub least ts
  | ⟨.quotedIdentifier _, _⟩ :: _ => sub least ts
  | ⟨.symbol .star, _⟩ :: _ => sub least ts
  | ⟨.symbol .leftBracket, offset⟩ :: rest => multiList stop bound sub offset rest
  | ⟨.symbol .leftBrace, offset⟩ :: rest => multiHash stop bound sub offset rest
  | ts =>
    refuse stop .unexpectedToken
      "expected an identifier, '*', '[' or '\x7b' after '.'" ts

/-- The right side of a projection: the operators that bind tightly enough, or else the current
value as it is. -/
def projected (least : Nat) : Step Expr := fun ts =>
  if power ts < projectionStop then
    .ok (.atom .identity (place stop ts), ts)
  else
    match ts with
    | ⟨.symbol .leftBracket, _⟩ :: _ => sub least ts
    | ⟨.symbol .filter, _⟩ :: _ => sub least ts
    | ⟨.symbol .dot, _⟩ :: rest => afterDot stop bound sub least rest
    | ts => refuse stop .unexpectedToken "expected '.', '[' or '[?'" ts

/-- The power that the right side of a projection of all items or values asks for. -/
def starPower : Nat := Lexeme.power (.symbol .star)

/-- Whether an expression is a current value that the source leaves out. -/
def isIdentity : Expr → Bool
  | .atom .identity _ => true
  | _ => false

/-- An index or a slice of what stands before its bracket; a slice projects its items. -/
def bracketed (left : Expr) (offset : Nat) : Step Expr := fun ts => do
  let (a, rest) ← bracket stop ts
  let indexed : Expr :=
    if isIdentity left then .atom a offset else .binary .step left (.atom a offset) offset
  match a with
  | .slice _ => do
    let (right, rest) ← projected stop bound sub starPower rest
    .ok (.binary .eachItem indexed right offset, rest)
  | _ => .ok (indexed, rest)

/-- A filter of what stands before its bracket, after that bracket. -/
def filtered (left : Expr) (offset : Nat) : Step Expr := fun ts => do
  let (predicate, rest) ← sub 0 ts
  let rest ← expect stop .rightBracket "expected ']' to close '[?'" rest
  match rest with
  | ⟨.symbol .flatten, _⟩ :: _ =>
    .ok (.filter left predicate (.atom .identity offset) offset, rest)
  | rest => do
    let (right, rest) ← projected stop bound sub (Lexeme.power (.symbol .filter)) rest
    .ok (.filter left predicate right offset, rest)

/-- A projection of the flattened items of what stands before it. -/
def flattened (left : Expr) (offset : Nat) : Step Expr := fun ts => do
  let (right, rest) ← projected stop bound sub (Lexeme.power (.symbol .flatten)) ts
  .ok (.binary .eachItem (.unary .flatten left offset) right offset, rest)

/-- The operand that starts with a token. -/
def operand : Step Expr := fun ts =>
  match ts with
  | [] => refuse stop .unexpectedToken "expected an expression" []
  | t :: ts =>
    match t.lexeme with
    | .identifier name => .ok (.atom (.field name) t.offset, ts)
    | .quotedIdentifier name =>
      match ts with
      | ⟨.symbol .leftParen, _⟩ :: _ =>
        refuse stop .unexpectedToken
          "quoted identifiers cannot be used as function names" ts
      | ts => .ok (.atom (.field name) t.offset, ts)
    | .rawString text => .ok (.atom (.literal (.str text)) t.offset, ts)
    | .literal value => .ok (.atom (.literal value) t.offset, ts)
    | .symbol .current => .ok (.atom .current t.offset, ts)
    | .symbol .star =>
      match ts with
      | ⟨.symbol .rightBracket, _⟩ :: _ =>
        .ok (.binary .eachValue (.atom .identity t.offset) (.atom .identity t.offset)
          t.offset, ts)
      | ts => do
        let (right, rest) ← projected stop bound sub starPower ts
        .ok (.binary .eachValue (.atom .identity t.offset) right t.offset, rest)
    | .symbol .filter => filtered stop bound sub (.atom .identity t.offset) t.offset ts
    | .symbol .flatten => flattened stop bound sub (.atom .identity t.offset) t.offset ts
    | .symbol .not => do
      let (e, rest) ← sub (Lexeme.power (.symbol .not)) ts
      .ok (.unary .not e t.offset, rest)
    | .symbol .leftParen => do
      let (e, rest) ← sub 0 ts
      let rest ← expect stop .rightParen "expected ')' to close '('" rest
      .ok (e, rest)
    | .symbol .leftBrace => multiHash stop bound sub t.offset ts
    | .symbol .ampersand => do
      let (e, rest) ← sub 0 ts
      .ok (.unary .reference e t.offset, rest)
    | .symbol .leftBracket =>
      if startsBracket ts then
        bracketed stop bound sub (.atom .identity t.offset) t.offset ts
      else
        match ts with
        | ⟨.symbol .star, _⟩ :: ⟨.symbol .rightBracket, _⟩ :: ts => do
          let (right, rest) ← projected stop bound sub starPower ts
          .ok (.binary .eachItem (.atom .identity t.offset) right t.offset, rest)
        | ts => multiList stop bound sub t.offset ts
    | _ => refuse stop .unexpectedToken "expected an expression" (t :: ts)

/-- The comparator of a symbol. -/
def comparator? : Symbol → Option Comparator
  | .eq => some .eq
  | .ne => some .ne
  | .lt => some .lt
  | .le => some .le
  | .gt => some .gt
  | .ge => some .ge
  | _ => none

/-- Whether tokens start with a comparison operator. -/
def startsWithComparator : List Token → Bool
  | ⟨.symbol s, _⟩ :: _ => (comparator? s).isSome
  | _ => false

/-- A binary operator with its right side. -/
def infixed (op : BinaryOp) (least : Nat) (left : Expr) (offset : Nat) : Step Expr :=
  fun ts => do
    let (right, rest) ← sub least ts
    .ok (.binary op left right offset, rest)

/-- A comparison with its right side, after which no other comparison may follow. -/
def compared (c : Comparator) (least : Nat) (left : Expr) (offset : Nat) : Step Expr :=
  fun ts => do
    let (right, rest) ← sub least ts
    if startsWithComparator rest then
      refuse stop .unexpectedToken "comparisons cannot be chained, use parentheses" rest
    else
      .ok (.binary (.compare c) left right offset, rest)

/-- What stands before an operator, extended by the operator `t` and its right side. -/
def extend (left : Expr) (t : Token) : Step Expr := fun ts =>
  match t.lexeme with
  | .symbol .dot =>
    match ts with
    | ⟨.symbol .star, _⟩ :: ts => do
      let (right, rest) ← projected stop bound sub (Lexeme.power (.symbol .dot)) ts
      .ok (.binary .eachValue left right t.offset, rest)
    | ts => do
      let (right, rest) ← afterDot stop bound sub (Lexeme.power (.symbol .dot)) ts
      .ok (.binary .step left right t.offset, rest)
  | .symbol .leftBracket =>
    if startsBracket ts then
      bracketed stop bound sub left t.offset ts
    else do
      let rest ← expect stop .star "expected a number, ':' or '*' after '['" ts
      let rest ← expect stop .rightBracket "expected ']' to close '[*'" rest
      let (right, rest) ← projected stop bound sub starPower rest
      .ok (.binary .eachItem left right t.offset, rest)
  | .symbol .filter => filtered stop bound sub left t.offset ts
  | .symbol .flatten => flattened stop bound sub left t.offset ts
  | .symbol .pipe => infixed sub .pipe t.lexeme.power left t.offset ts
  | .symbol .or => infixed sub .or t.lexeme.power left t.offset ts
  | .symbol .and => infixed sub .and t.lexeme.power left t.offset ts
  | .symbol .leftParen =>
    match left with
    | .atom (.field name) offset => do
      let (args, rest) ← arguments stop sub name bound ts
      .ok (.call name args offset, rest)
    | _ => refuse stop .unexpectedToken "invalid function name" (t :: ts)
  | .symbol s =>
    match comparator? s with
    | some c => compared stop sub c t.lexeme.power left t.offset ts
    | none => refuse stop .unexpectedToken [] (t :: ts)
  | _ => refuse stop .unexpectedToken [] (t :: ts)

/-- What stands before some operators, extended by those that bind more tightly than
`least`. -/
def operators (least : Nat) : (fuel : Nat) → Expr → Step Expr
  | 0, left, ts => .ok (left, ts)
  | _ + 1, left, [] => .ok (left, [])
  | fuel + 1, left, t :: ts =>
    if least < t.lexeme.power then do
      let (left, rest) ← extend stop bound sub left t ts
      operators least fuel left rest
    else
      .ok (left, t :: ts)

end

/-- An expression whose operators bind more tightly than `least`, with at most `nesting`
expressions one inside the other.  No list is longer than `bound`, which may be the number of
tokens. -/
def expression (stop bound : Nat) : (nesting least : Nat) → Step Expr
  | 0, _, ts => .error ⟨.tooDeep, "at " ++ found ts, [], place stop ts⟩
  | nesting + 1, least, ts => do
    let (left, rest) ← operand stop bound (expression stop bound nesting) ts
    operators stop bound (expression stop bound nesting) least bound left rest

end Parser

/-- The expression that all of some tokens make up. -/
def Expr.ofTokens (tokens : Tokens) : Except ParseError Expr := do
  let (e, rest) ←
    Parser.expression tokens.stop tokens.items.length nestingLimit 0 tokens.items
  match rest with
  | [] => .ok e
  | ⟨.symbol s, offset⟩ :: rest =>
    if Parser.isCloser s then
      Parser.refuse tokens.stop .unmatchedDelimiter
        ("no opening delimiter for " ++ (Text.ofString s.text).quoted)
        (⟨.symbol s, offset⟩ :: rest)
    else
      Parser.refuse tokens.stop .unexpectedToken "expected end of expression"
        (⟨.symbol s, offset⟩ :: rest)
  | rest => Parser.refuse tokens.stop .unexpectedToken "expected end of expression" rest

/-- Why a source is not an expression. -/
inductive SourceError where
  | query (error : QueryError)
  /-- An integer has more digits than may be read. -/
  | tooManyDigits (count : Nat)

/-- The tokens of a source; errors know the source. -/
def Tokens.read (source : Text) : Except SourceError Tokens :=
  (Tokens.ofSource source).mapError fun
    | .lex e => .query (e.toQueryError.attach source)
    | .tooManyDigits count => .tooManyDigits count

/-- The expression that a source is; errors know the source. -/
def Expr.parse (source : Text) : Except SourceError Expr := do
  let tokens ← Tokens.read source
  (Expr.ofTokens tokens).mapError fun e => .query (e.toQueryError.attach source)

end JsonQuery
