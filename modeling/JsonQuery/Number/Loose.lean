/-
Numbers in loosely written text.

Besides the numerals of documents, a number may be written with blanks around it, with a plus
sign, with the digits of any script, with underscores between digits, and with a point that has
digits on one side only.  Infinity and not-a-number have names, in any case.

* `Text.looseFloat?` — the floating-point value of such a text;
* `Text.looseInt?` — the integer of such a text, if it is one.
-/
import JsonQuery.Text.Blank
import JsonQuery.Text.Digit
import JsonQuery.Number.Decimal

namespace JsonQuery
namespace Text

/-- The blanks that may stand around a number. -/
def isMargin (c : CodePoint) : Bool :=
  if c.toNat < 128 then (9 ≤ c.toNat && c.toNat ≤ 13) || c.toNat == 32 else c.isBlank

/-- A text without the blanks around it, with digits of all scripts made into those of ASCII. -/
def plainDigits (t : Text) : Text :=
  let rest := t.dropWhile isMargin
  (rest.reverse.dropWhile isMargin).reverse.map fun c =>
    match c.decimal? with
    | some n => .ofNat (48 + n)
    | none => c

/-- A text without its underscores, if each of them stands between two digits. -/
def joinDigits? : (afterDigit : Bool) → Text → Option Text
  | _, [] => some []
  | afterDigit, .scalar '_' :: c :: t =>
    if afterDigit && c.isDigit then (joinDigits? true t).map (c :: ·) else none
  | _, .scalar '_' :: [] => none
  | _, c :: t => (joinDigits? c.isDigit t).map (c :: ·)

/-- The sign in front of a number, and the text after it. -/
def takeSign : Text → Bool × Text
  | .scalar '-' :: t => (true, t)
  | .scalar '+' :: t => (false, t)
  | t => (false, t)

/-- The digits at the start of a text, and the text after them. -/
def takeDigits (t : Text) : Text × Text :=
  t.span CodePoint.isDigit

/-- The value of a text that is nothing but digits. -/
def allDigits? (t : Text) : Option Nat :=
  if !t.isEmpty && t.all CodePoint.isDigit then some (digitsValue t) else none

/-- The exponent at the end of a numeral; no text at all is the exponent zero. -/
def exponent? : Text → Option Int
  | [] => some 0
  | c :: t =>
    if c = .scalar 'e' ∨ c = .scalar 'E' then
      let (negative, digits) := takeSign t
      (allDigits? digits).map fun n => if negative then -(n : Int) else n
    else
      none

/-- The decimal of an unsigned numeral, with digits on at least one side of its point. -/
def looseDecimal? (t : Text) : Option Decimal :=
  let (whole, rest) := takeDigits t
  let (fraction, rest) :=
    match rest with
    | .scalar '.' :: rest => takeDigits rest
    | rest => ([], rest)
  if whole.isEmpty && fraction.isEmpty then
    none
  else
    (exponent? rest).map fun e => ⟨digitsValue (whole ++ fraction), e - fraction.length⟩

/-- A text in lower case, as far as its letters are those of ASCII. -/
def lowerCase (t : Text) : Text :=
  t.map fun c => if 65 ≤ c.toNat ∧ c.toNat ≤ 90 then .ofNat (c.toNat + 32) else c

/-- The floating-point value of a loosely written text. -/
def looseFloat? (t : Text) : Option Float64 := do
  let t ← joinDigits? false (plainDigits t)
  let (negative, body) := takeSign t
  let name := lowerCase body
  if name = ofString "inf" ∨ name = ofString "infinity" then
    some (.infinite negative)
  else if name = ofString "nan" then
    some .nan
  else
    (looseDecimal? body).map (·.toFloat negative)

/-- The most digits that a text may have to be read as an integer. -/
def intDigitLimit : Nat := 4300

/-- The integer of a loosely written text. -/
def looseInt? (t : Text) : Option Int := do
  let t ← joinDigits? false (plainDigits t)
  let (negative, digits) := takeSign t
  let n ← allDigits? digits
  if intDigitLimit < digits.length then
    none
  else
    some (if negative then -(n : Int) else n)

end Text
end JsonQuery
