/-
The tokens of a source.

The source is taken from left to right.  At each place that is not blank the longest token is
taken; quoted identifiers, raw strings and literals go to the next delimiter that no backslash
escapes.

* `Lexeme.take` — the token at the start of a text, and how much of the text it is;
* `Tokens.ofSource` — all tokens of a source, or the first error.
-/
import JsonQuery.Error
import JsonQuery.Json.Reader
import JsonQuery.Token

namespace JsonQuery

/-- Why a source has no tokens. -/
inductive ScanError where
  | lex (error : LexError)
  /-- An integer has more digits than may be read. -/
  | tooManyDigits (count : Nat)

/-- The error as it is at a place further on. -/
def ScanError.shift (distance : Nat) : ScanError → ScanError
  | .lex e => .lex { e with offset := distance + e.offset }
  | .tooManyDigits count => .tooManyDigits count

namespace Lexeme

/-- The text up to the next delimiter; a backslash takes the code point after it along. -/
def delimited (delimiter : CodePoint) : Text → Option Text
  | [] => none
  | .scalar '\\' :: [] => none
  | .scalar '\\' :: c :: t => (delimited delimiter t).map fun body => .scalar '\\' :: c :: body
  | c :: t => if c = delimiter then some [] else (delimited delimiter t).map (c :: ·)

/-- The code point that an escape by number stands for, and how many code points the escape has
after its letter; its second half must follow at once. -/
def hexEscape? (t : Text) : Option (CodePoint × Nat) :=
  (Reader.hex4? t).map fun n =>
    if CodePoint.isHighSurrogate n then
      match t.drop 4 with
      | .scalar '\\' :: .scalar 'u' :: rest =>
        match (Reader.hex4? rest).filter CodePoint.isLowSurrogate with
        | some low => (.ofNat (CodePoint.joinSurrogates n low), 10)
        | none => (.ofNat n, 4)
      | _ => (.ofNat n, 4)
    else (.ofNat n, 4)

/-- The text that the body of a quoted identifier stands for; its first `skip` code points
belong to an escape.  `offset` is the place of the body for errors. -/
def unescape (offset : Nat) : (skip : Nat) → Text → Except LexError Text
  | _, [] => .ok []
  | skip + 1, _ :: t => unescape (offset + 1) skip t
  | 0, c :: t =>
    if c = .scalar '\\' then
      match t with
      | .scalar 'u' :: digits =>
        match hexEscape? digits with
        | some (x, used) => (unescape (offset + 1) (used + 1) t).map (x :: ·)
        | none => .error ⟨.invalidEscape, "\\u" ++ digits.take 4, offset⟩
      | letter :: _ =>
        match Reader.letterEscape? letter with
        | some x => (unescape (offset + 1) 1 t).map (x :: ·)
        | none => .error ⟨.invalidEscape, [.scalar '\\', letter], offset⟩
      | [] => .error ⟨.invalidEscape, [.scalar '\\'], offset⟩
    else if c.toNat < 0x20 then
      .error ⟨.invalidCharacter, "control characters must be escaped", offset⟩
    else
      (unescape (offset + 1) 0 t).map (c :: ·)

/-- The text that the body of a raw string stands for: a backslash counts only before a quote
or another backslash. -/
def rawText : Text → Text
  | [] => []
  | .scalar '\\' :: .scalar '\x27' :: t => .scalar '\x27' :: rawText t
  | .scalar '\\' :: .scalar '\\' :: t => .scalar '\\' :: rawText t
  | c :: t => c :: rawText t

/-- The delimiter of literals. -/
def literalMark : CodePoint := .scalar '\x60'

/-- The JSON text in the body of a literal, whose delimiters are escaped by backslashes. -/
def literalText : Text → Text
  | [] => []
  | .scalar '\\' :: .scalar '\x60' :: t => literalMark :: literalText t
  | c :: t => c :: literalText t

/-- The value of the body of a literal. -/
def literalValue (body : Text) : Except LexError Json :=
  (Json.read (literalText body).strip).mapError fun
    | .tooDeep => ⟨.invalidLiteral, "literal is nested too deeply", 0⟩
    | e => ⟨.invalidLiteral, e.message, 0⟩

/-- A token between delimiters: its body, given the text after the opening one. -/
def takeDelimited (delimiter : CodePoint) (t : Text) : Except LexError Text :=
  match delimited delimiter t with
  | some body => .ok body
  | none => .error ⟨.unterminated, "missing closing " ++ [delimiter], 0⟩

/-- The longest symbol at the start of a text. -/
def symbol? (t : Text) : Option Symbol :=
  Symbol.all.find? fun s => (Text.ofString s.text).isPrefixOf t

/-- An integer with a sign, given its digits. -/
def ofDigits (negative : Bool) (digits : Text) : Except ScanError Lexeme :=
  if Text.intDigitLimit < digits.length then
    .error (.tooManyDigits digits.length)
  else
    let n : Int := Text.digitsValue digits
    .ok (.number (if negative then -n else n))

/-- The token that starts with a code point and goes on in a text, and how many code points of
that text belong to it. -/
def take (c : CodePoint) (t : Text) : Except ScanError (Lexeme × Nat) :=
  if c.isIdentifierStart then
    let more := t.takeWhile CodePoint.isIdentifierPart
    .ok (.identifier (c :: more), more.length)
  else if c.isDigit then do
    let more := t.takeWhile CodePoint.isDigit
    let lexeme ← ofDigits false (c :: more)
    .ok (lexeme, more.length)
  else if c = .scalar '-' then do
    let digits := t.takeWhile CodePoint.isDigit
    if digits.isEmpty then
      .error (.lex ⟨.invalidCharacter, "'-' must be followed by digits", 0⟩)
    else
      let lexeme ← ofDigits true digits
      .ok (lexeme, digits.length)
  else if c = .scalar '\x22' then do
    let body ← (takeDelimited c t).mapError .lex
    let name ← (unescape 1 0 body).mapError .lex
    .ok (.quotedIdentifier name, body.length + 1)
  else if c = .scalar '\x27' then do
    let body ← (takeDelimited c t).mapError .lex
    .ok (.rawString (rawText body), body.length + 1)
  else if c = literalMark then do
    let body ← (takeDelimited c t).mapError .lex
    let value ← (literalValue body).mapError .lex
    .ok (.literal value, body.length + 1)
  else
    match symbol? (c :: t) with
    | some s => .ok (.symbol s, s.text.length - 1)
    | none =>
      if c = .scalar '=' then
        .error (.lex ⟨.invalidCharacter, "did you mean '=='?", 0⟩)
      else
        .error (.lex ⟨.invalidCharacter, Text.quoted [c], 0⟩)

end Lexeme

/-- The tokens of a text that starts at an offset; its first `skip` code points belong to the
token before it. -/
def Token.scan (offset : Nat) : (skip : Nat) → Text → Except ScanError (List Token)
  | _, [] => .ok []
  | skip + 1, _ :: t => scan (offset + 1) skip t
  | 0, c :: t =>
    if Reader.isSpace c then
      scan (offset + 1) 0 t
    else
      match Lexeme.take c t with
      | .ok (lexeme, used) => (scan (offset + 1) used t).map (⟨lexeme, offset⟩ :: ·)
      | .error e => .error (e.shift offset)

/-- The tokens of a source. -/
def Tokens.ofSource (source : Text) : Except ScanError Tokens :=
  (Token.scan 0 0 source).map (⟨·, source.length⟩)

end JsonQuery
