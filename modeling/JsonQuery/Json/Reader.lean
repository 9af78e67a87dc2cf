/-
Reading JSON text.

The reader takes the text from left to right and stops at the first fault.  A fault inside the
text is told by its kind and its place; other faults are a name for a value that is no number,
an integer with too many digits, and nesting beyond the limit.  Of entries with the same key the
last one counts, at the place of the first.

* `Document.read` — the document that a text is;
* `Json.read` — its value.
-/
import JsonQuery.Json.Document
import JsonQuery.Nesting
import JsonQuery.Number.Loose
import JsonQuery.Text.Position

namespace JsonQuery
namespace Reader

/-- What is wrong at a place of a text. -/
inductive Problem where
  | byteOrderMark
  | expectingValue
  | extraData
  | expectingName
  | expectingColon
  | expectingComma
  | unterminatedString
  | controlCharacter
  | invalidEscape
  | invalidHexEscape
  deriving DecidableEq

/-- A problem in words. -/
def Problem.words : Problem → String
  | .byteOrderMark => "Unexpected UTF-8 BOM (decode using utf-8-sig)"
  | .expectingValue => "Expecting value"
  | .extraData => "Extra data"
  | .expectingName => "Expecting property name enclosed in double quotes"
  | .expectingColon => "Expecting ':' delimiter"
  | .expectingComma => "Expecting ',' delimiter"
  | .unterminatedString => "Unterminated string starting at"
  | .controlCharacter => "Invalid control character at"
  | .invalidEscape => "Invalid \\escape"
  | .invalidHexEscape => "Invalid \\uXXXX escape"

/-- Why reading stopped; a problem comes with the text from its place on. -/
inductive Fault where
  | problem (p : Problem) (rest : Text)
  | constant (name : String)
  | tooManyDigits (count : Nat)
  | tooDeep

/-- A step of reading gives a result and the text after it. -/
abbrev Step (α : Type) := Text → Except Fault (α × Text)

/-- The blanks of JSON. -/
def isSpace (c : CodePoint) : Bool :=
  c == .scalar ' ' || c == .scalar '\t' || c == .scalar '\n' || c == .scalar '\r'

/-- A text without the blanks at its start. -/
def skipSpaces (t : Text) : Text :=
  t.dropWhile isSpace

/-- The number of four hexadecimal digits at the start of a text. -/
def hex4? (t : Text) : Option Nat :=
  if (t.take 4).length = 4 then Text.hexDigitsValue? (t.take 4) else none

/-- The second half of a surrogate pair, if its escape starts a text and another code point
follows it. -/
def lowHalf? : Text → Option Nat
  | .scalar '\\' :: .scalar 'u' :: t =>
    if (t.drop 4).isEmpty then none
    else (hex4? t).filter CodePoint.isLowSurrogate
  | _ => none

/-- What an escape of one letter stands for. -/
def letterEscape? (c : CodePoint) : Option CodePoint :=
  match c with
  | .scalar '\x22' => some c
  | .scalar '\\' => some c
  | .scalar '/' => some c
  | .scalar 'b' => some (.ofNat 8)
  | .scalar 'f' => some (.ofNat 12)
  | .scalar 'n' => some (.ofNat 10)
  | .scalar 'r' => some (.ofNat 13)
  | .scalar 't' => some (.ofNat 9)
  | _ => none

/-- The code point that an escape by number stands for, and how many code points the escape has
after its letter. -/
def hexEscape? (t : Text) : Option (CodePoint × Nat) :=
  if (t.drop 4).isEmpty then none
  else
    (hex4? t).map fun n =>
      if CodePoint.isHighSurrogate n then
        match lowHalf? (t.drop 4) with
        | some low => (.ofNat (CodePoint.joinSurrogates n low), 10)
        | none => (.ofNat n, 4)
      else (.ofNat n, 4)

/-- The body of a string up to its closing quote, of which the first `skip` code points belong
to an escape.  `opening` is the text from the opening quote on. -/
def stringBody (opening : Text) : (skip : Nat) → Step Text
  | _, [] => .error (.problem .unterminatedString opening)
  | skip + 1, _ :: t => stringBody opening skip t
  | 0, c :: t =>
    if c = .scalar '\x22' then .ok ([], t)
    else if c = .scalar '\\' then
      match t with
      | [] => .error (.problem .unterminatedString opening)
      | .scalar 'u' :: digits =>
        match hexEscape? digits with
        | some (x, used) =>
          (stringBody opening (used + 1) t).map fun (s, rest) => (x :: s, rest)
        | none => .error (.problem .invalidHexEscape t)
      | letter :: _ =>
        match letterEscape? letter with
        | some x => (stringBody opening 1 t).map fun (s, rest) => (x :: s, rest)
        | none => .error (.problem .invalidEscape (c :: t))
    else if c.toNat < 0x20 then .error (.problem .controlCharacter (c :: t))
    else (stringBody opening 0 t).map fun (s, rest) => (c :: s, rest)

/-- The digits after a point at the start of a text, if there are any. -/
def takeFraction : Text → Option (Text × Text)
  | .scalar '.' :: t =>
    match Text.takeDigits t with
    | ([], _) => none
    | (digits, rest) => some (digits, rest)
  | _ => none

/-- The exponent at the start of a text, if there is one. -/
def takeExponent : Text → Option (Int × Text)
  | c :: t =>
    if c = .scalar 'e' ∨ c = .scalar 'E' then
      let (negative, t) := Text.takeSign t
      match Text.takeDigits t with
      | ([], _) => none
      | (digits, rest) =>
        let n : Int := Text.digitsValue digits
        some (if negative then -n else n, rest)
    else none
  | [] => none

/-- The digits of an integer part: one zero, or a run that starts with another digit. -/
def takeWhole : Text → Option (Text × Text)
  | .scalar '0' :: t => some ([.scalar '0'], t)
  | t =>
    match Text.takeDigits t with
    | ([], _) => none
    | (digits, rest) => some (digits, rest)

/-- A numeral.  One with a fraction or an exponent is a floating-point value. -/
def numeral : Step Numeral := fun t =>
  let (negative, body) :=
    match t with
    | .scalar '-' :: body => (true, body)
    | body => (false, body)
  match takeWhole body with
  | none => .error (.problem .expectingValue t)
  | some (whole, rest) =>
    let fraction := takeFraction rest
    let (fractionDigits, rest) := fraction.getD ([], rest)
    let exponent := takeExponent rest
    let (e, rest) := exponent.getD (0, rest)
    if fraction.isNone && exponent.isNone then
      if Text.intDigitLimit < whole.length then
        .error (.tooManyDigits whole.length)
      else
        let n : Int := Text.digitsValue whole
        .ok (.int (if negative then -n else n), rest)
    else
      let d : Decimal :=
        ⟨Text.digitsValue (whole ++ fractionDigits), e - fractionDigits.length⟩
      .ok (.float (d.toFloat negative), rest)

/-- The items of an array after its opening bracket and blanks, up to the closing bracket.  As
many items are read as `fuel` allows; the length of the text is enough. -/
def items (value : Step Document) : (fuel : Nat) → Step (List Document)
  | 0, t => .error (.problem .expectingValue t)
  | fuel + 1, t => do
    let (x, rest) ← value t
    match skipSpaces rest with
    | .scalar ']' :: rest => .ok ([x], rest)
    | .scalar ',' :: rest => do
      let (xs, rest) ← items value fuel (skipSpaces rest)
      .ok (x :: xs, rest)
    | rest => .error (.problem .expectingComma rest)

/-- One entry of an object: a key, a colon and a value. -/
def entry (value : Step Document) : Step (Text × Document)
  | .scalar '\x22' :: t => do
    let (key, rest) ← stringBody (.scalar '\x22' :: t) 0 t
    match skipSpaces rest with
    | .scalar ':' :: rest => do
      let (x, rest) ← value (skipSpaces rest)
      .ok ((key, x), rest)
    | rest => .error (.problem .expectingColon rest)
  | t => .error (.problem .expectingName t)

/-- The entries of an object after its opening brace and blanks, up to the closing brace. -/
def entries (value : Step Document) : (fuel : Nat) → Step (List (Text × Document))
  | 0, t => .error (.problem .expectingName t)
  | fuel + 1, t => do
    let (e, rest) ← entry value t
    match skipSpaces rest with
    | .scalar '\x7d' :: rest => .ok ([e], rest)
    | .scalar ',' :: rest => do
      let (es, rest) ← entries value fuel (skipSpaces rest)
      .ok (e :: es, rest)
    | rest => .error (.problem .expectingComma rest)

/-- An array after its opening bracket, with at most `bound` items. -/
def array (bound : Nat) (value : Step Document) : Step Document := fun t =>
  match skipSpaces t with
  | .scalar ']' :: rest => .ok (.arr [], rest)
  | rest => do
    let (xs, rest) ← items value bound rest
    .ok (.arr xs, rest)

/-- An object after its opening brace, with at most `bound` entries. -/
def object (bound : Nat) (value : Step Document) : Step Document := fun t =>
  match skipSpaces t with
  | .scalar '\x7d' :: rest => .ok (.obj [], rest)
  | rest => do
    let (es, rest) ← entries value bound rest
    .ok (.obj (Entries.ofList es), rest)

/-- The words of JSON and what they stand for. -/
def names : List (String × Document) :=
  [("null", .null), ("true", .bool true), ("false", .bool false)]

/-- The words for floating-point values that are no numbers. -/
def constants : List (String × Float64) :=
  [("NaN", .nan), ("Infinity", .infinite false), ("-Infinity", .infinite true)]

/-- The name that starts a text, with what it names and the text after it. -/
def takeName {α : Type} (table : List (String × α)) (t : Text) : Option (String × α × Text) :=
  table.findSome? fun (name, x) =>
    if (Text.ofString name).isPrefixOf t then some (name, x, t.drop name.length) else none

/-- A value that is no array, object or string. -/
def scalar (allowConstants : Bool) : Step Document := fun t =>
  match takeName names t with
  | some (_, x, rest) => .ok (x, rest)
  | none =>
    match takeName constants t with
    | some (name, x, rest) =>
      if allowConstants then .ok (.num (.float x), rest) else .error (.constant name)
    | none => do
      let (n, rest) ← numeral t
      .ok (.num n, rest)

/-- A value inside at most `nesting` more arrays and objects.  None of them is longer than
`bound`, which may be the length of the text. -/
def value (allowConstants : Bool) (bound : Nat) : (nesting : Nat) → Step Document
  | _, .scalar '\x22' :: t =>
    (stringBody (.scalar '\x22' :: t) 0 t).map fun (s, rest) => (.str s, rest)
  | 0, .scalar '[' :: _ => .error .tooDeep
  | 0, .scalar '\x7b' :: _ => .error .tooDeep
  | nesting + 1, .scalar '[' :: t => array bound (value allowConstants bound nesting) t
  | nesting + 1, .scalar '\x7b' :: t => object bound (value allowConstants bound nesting) t
  | _, t => scalar allowConstants t

/-- A whole text: a value with blanks around it. -/
def document (allowConstants : Bool) (t : Text) : Except Fault Document :=
  match t with
  | .scalar '\uFEFF' :: _ => .error (.problem .byteOrderMark t)
  | _ => do
    let (d, rest) ← value allowConstants t.length nestingLimit (skipSpaces t)
    match skipSpaces rest with
    | [] => .ok d
    | rest => .error (.problem .extraData rest)

end Reader

/-- Why a text is not read. -/
inductive ReadError where
  | malformed (problem : Reader.Problem) (line column index : Nat)
  | constant (name : String)
  | tooManyDigits (count : Nat)
  | tooDeep
  | numeral (error : NumeralError)

/-- What is said of an integer with too many digits. -/
def tooManyDigitsMessage (count : Nat) : Text :=
  "Exceeds the limit (" ++ Text.ofNat Text.intDigitLimit ++
    " digits) for integer string conversion: value has " ++ Text.ofNat count ++
    " digits; use sys.set_int_max_str_digits() to increase the limit"

/-- The error in words; lines and columns count from one here. -/
def ReadError.message : ReadError → Text
  | .malformed problem line column index =>
    problem.words ++ ": line " ++ Text.ofNat line ++ " column " ++ Text.ofNat column ++
      " (char " ++ Text.ofNat index ++ ")"
  | .constant name => name ++ " is not valid JSON"
  | .tooManyDigits count => tooManyDigitsMessage count
  | .tooDeep => "nested too deeply"
  | .numeral error => error.message

/-- A fault in a text, with its place counted from the start of the text. -/
def Reader.Fault.located (t : Text) : Reader.Fault → ReadError
  | .problem p rest =>
    let index := t.length - rest.length
    let (line, column) := t.lineAndColumn index
    .malformed p (line + 1) (column + 1) index
  | .constant name => .constant name
  | .tooManyDigits count => .tooManyDigits count
  | .tooDeep => .tooDeep

/-- The document that a text is. -/
def Document.read (allowConstants : Bool) (t : Text) : Except ReadError Document :=
  (Reader.document allowConstants t).mapError (·.located t)

/-- The value of a JSON text. -/
def Json.read (t : Text) : Except ReadError Json := do
  let d ← Document.read false t
  d.toJson.mapError .numeral

end JsonQuery
