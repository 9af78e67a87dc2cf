/-
The errors of queries, and how they are told.

An error has a cause and an offset.  Once it is known in which source it arose, the source is
attached; then the error is told with the line and column of its offset, and with that line and
a caret below it.

* `QueryError.attach` — only the first source attached counts;
* `QueryError.toText` — the whole text of an error.
-/
import JsonQuery.Text.Position

namespace JsonQuery

/-- The kinds of errors in the tokens of a source. -/
inductive LexProblem where
  | unterminated
  | invalidEscape
  | invalidCharacter
  | invalidLiteral
  deriving DecidableEq

/-- A kind of errors in words. -/
def LexProblem.words : LexProblem → String
  | .unterminated => "unterminated literal"
  | .invalidEscape => "invalid escape sequence"
  | .invalidCharacter => "invalid character"
  | .invalidLiteral => "invalid JSON literal"

/-- The kinds of errors in the structure of a source. -/
inductive ParseProblem where
  | unexpectedToken
  | unexpectedEnd
  | unmatchedDelimiter
  | malformedSlice
  | invalidKey
  | tooDeep
  deriving DecidableEq

/-- A kind of errors in words. -/
def ParseProblem.words : ParseProblem → String
  | .unexpectedToken => "unexpected token"
  | .unexpectedEnd => "unexpected end of expression"
  | .unmatchedDelimiter => "unmatched delimiter"
  | .malformedSlice => "malformed slice"
  | .invalidKey => "invalid multi-select hash key"
  | .tooDeep => "expression nested too deeply"

/-- What goes wrong in an evaluation. -/
inductive EvalProblem where
  | unknownFunction (name : Text)
  | invalidArity (name : Text) (expected actual : Int) (variadic : Bool)
  | invalidType (name : Text) (position : Int) (expected actual : Text)
  | invalidSlice
  | invalidSortKey (name actual : Text)
  | recursionLimit (limit : Int)
  deriving DecidableEq

/-- What went wrong in words. -/
def EvalProblem.message : EvalProblem → Text
  | .unknownFunction name => "Call to undefined function " ++ name
  | .invalidArity name expected actual variadic =>
    "Function " ++ name ++ " expects " ++ (if variadic then "at least " else "") ++
      Text.ofInt expected ++ " argument(s), got " ++ Text.ofInt actual
  | .invalidType name position expected actual =>
    "Argument " ++ Text.ofInt position ++ " of " ++ name ++ " expects type " ++ expected ++
      ", got " ++ actual
  | .invalidSlice => "Slice step cannot be 0"
  | .invalidSortKey name actual =>
    name ++ " requires keys that are all numbers or all strings, got " ++ actual
  | .recursionLimit limit =>
    "Maximum evaluation depth of " ++ Text.ofInt limit ++ " exceeded"

/-- The cause of an error. -/
inductive Cause where
  /-- A cause of no stage, told by its message alone. -/
  | other (message : Text)
  | lex (problem : LexProblem) (detail : Text)
  | parse (problem : ParseProblem) (found context : Text)
  | eval (problem : EvalProblem)
  /-- A cause in an evaluation that is none of the known problems. -/
  | otherEval (message : Text)
  deriving DecidableEq

/-- The stage that an error belongs to. -/
def Cause.label : Cause → String
  | .other _ => "Error"
  | .lex _ _ => "Lex error"
  | .parse _ _ _ => "Parse error"
  | .eval _ => "Runtime error"
  | .otherEval _ => "Runtime error"

/-- A cause in words. -/
def Cause.message : Cause → Text
  | .other message => message
  | .lex problem detail => problem.words ++ ": " ++ detail
  | .parse problem found context =>
    let hint : Text := if context.isEmpty then [] else ", " ++ context
    problem.words ++ " " ++ found ++ hint
  | .eval problem => problem.message
  | .otherEval message => message

/-- An error at an offset, with the source that it arose in if that is known. -/
structure QueryError where
  cause : Cause
  offset : Int
  source : Option Text
  deriving DecidableEq

namespace QueryError

/-- The error with a source, unless it has one. -/
def attach (e : QueryError) (source : Text) : QueryError :=
  { e with source := some (e.source.getD source) }

/-- The line and the column; without a source the column is the offset. -/
def lineAndColumn (e : QueryError) : Nat × Int :=
  match e.source with
  | none => (0, e.offset)
  | some source =>
    let (line, column) := source.lineAndColumn e.offset
    (line, column)

/-- The error as it is told. -/
def toText (e : QueryError) : Text :=
  match e.source with
  | none => e.cause.label ++ " at offset " ++ Text.ofInt e.offset ++ ": " ++ e.cause.message
  | some source =>
    let (line, column) := source.lineAndColumn e.offset
    e.cause.label ++ " at line " ++ Text.ofNat line ++ ", column " ++ Text.ofNat column ++ ": " ++
      e.cause.message ++ "\n" ++ source.caret e.offset

end QueryError

/-- An error in the tokens of a source. -/
structure LexError where
  problem : LexProblem
  detail : Text
  offset : Nat
  deriving DecidableEq

/-- An error in the structure of a source. -/
structure ParseError where
  problem : ParseProblem
  found : Text
  context : Text
  offset : Nat
  deriving DecidableEq

/-- An error in the tokens as an error of a query. -/
def LexError.toQueryError (e : LexError) : QueryError :=
  ⟨.lex e.problem e.detail, e.offset, none⟩

/-- An error in the structure as an error of a query. -/
def ParseError.toQueryError (e : ParseError) : QueryError :=
  ⟨.parse e.problem e.found e.context, e.offset, none⟩

end JsonQuery
