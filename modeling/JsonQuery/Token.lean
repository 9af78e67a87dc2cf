/-
Tokens of query expressions.

A token is what it says and the offset where it starts.  Besides the tokens a source has an end,
which is where errors about missing tokens point to.

* `Symbol` — the tokens that are fixed texts, with `Symbol.text` and `Symbol.name`;
* `Lexeme.describe` — a token as errors tell it;
* `Lexeme.power` — how tightly a token binds what stands before it.
-/
import JsonQuery.Data
import JsonQuery.Text.Quoted

namespace JsonQuery

/-- Tokens that are fixed texts. -/
inductive Symbol where
  | dot
  | star
  | leftBracket
  | rightBracket
  | flatten
  | filter
  | leftBrace
  | rightBrace
  | leftParen
  | rightParen
  | comma
  | colon
  | current
  | pipe
  | or
  | ampersand
  | and
  | not
  | ne
  | eq
  | lt
  | le
  | gt
  | ge
  deriving DecidableEq

/-- All symbols, those of two characters first. -/
def Symbol.all : List Symbol :=
  [.flatten, .filter, .or, .and, .ne, .eq, .le, .ge, .dot, .star, .leftBracket, .rightBracket,
    .leftBrace, .rightBrace, .leftParen, .rightParen, .comma, .colon, .current, .pipe,
    .ampersand, .not, .lt, .gt]

/-- How a symbol is written. -/
def Symbol.text : Symbol → String
  | .dot => "."
  | .star => "*"
  | .leftBracket => "["
  | .rightBracket => "]"
  | .flatten => "[]"
  | .filter => "[?"
  | .leftBrace => "\x7b"
  | .rightBrace => "\x7d"
  | .leftParen => "("
  | .rightParen => ")"
  | .comma => ","
  | .colon => ":"
  | .current => "@"
  | .pipe => "|"
  | .or => "||"
  | .ampersand => "&"
  | .and => "&&"
  | .not => "!"
  | .ne => "!="
  | .eq => "=="
  | .lt => "<"
  | .le => "<="
  | .gt => ">"
  | .ge => ">="

/-- What a symbol is called. -/
def Symbol.name : Symbol → String
  | .dot => "DOT"
  | .star => "STAR"
  | .leftBracket => "LBRACKET"
  | .rightBracket => "RBRACKET"
  | .flatten => "FLATTEN"
  | .filter => "FILTER"
  | .leftBrace => "LBRACE"
  | .rightBrace => "RBRACE"
  | .leftParen => "LPAREN"
  | .rightParen => "RPAREN"
  | .comma => "COMMA"
  | .colon => "COLON"
  | .current => "AT"
  | .pipe => "PIPE"
  | .or => "OR"
  | .ampersand => "AMPERSAND"
  | .and => "AND"
  | .not => "NOT"
  | .ne => "NE"
  | .eq => "EQ"
  | .lt => "LT"
  | .le => "LTE"
  | .gt => "GT"
  | .ge => "GTE"

/-- What a token says. -/
inductive Lexeme where
  | identifier (name : Text)
  | quotedIdentifier (name : Text)
  | rawString (text : Text)
  | literal (value : Json)
  | number (i : Int)
  | symbol (s : Symbol)

/-- What a kind of tokens is called. -/
def Lexeme.name : Lexeme → String
  | .identifier _ => "IDENTIFIER"
  | .quotedIdentifier _ => "QUOTED_IDENTIFIER"
  | .rawString _ => "RAW_STRING"
  | .literal _ => "LITERAL"
  | .number _ => "NUMBER"
  | .symbol s => s.name

/-- A token as errors tell it. -/
def Lexeme.describe : Lexeme → Text
  | .identifier name => "identifier " ++ name.quoted
  | .quotedIdentifier name => "identifier " ++ name.quoted
  | .rawString text => "RAW_STRING " ++ text.quoted
  | .literal _ => "literal"
  | .number i => "NUMBER " ++ Text.ofInt i
  | .symbol s => s.name ++ " " ++ (Text.ofString s.text).quoted

/-- How tightly a token binds what stands before it.  Zero ends every expression. -/
def Lexeme.power : Lexeme → Nat
  | .symbol .pipe => 1
  | .symbol .or => 2
  | .symbol .and => 3
  | .symbol .eq => 5
  | .symbol .ne => 5
  | .symbol .lt => 5
  | .symbol .le => 5
  | .symbol .gt => 5
  | .symbol .ge => 5
  | .symbol .flatten => 9
  | .symbol .star => 20
  | .symbol .filter => 21
  | .symbol .dot => 40
  | .symbol .not => 45
  | .symbol .leftBrace => 50
  | .symbol .leftBracket => 55
  | .symbol .leftParen => 60
  | _ => 0

/-- A token and the offset where it starts. -/
structure Token where
  lexeme : Lexeme
  offset : Nat

/-- The tokens of a source, and the offset of its end. -/
structure Tokens where
  items : List Token
  stop : Nat

end JsonQuery
