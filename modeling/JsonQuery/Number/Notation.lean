/-
How numbers are written.

A whole number is written as its integer.  Any other number is written with its shortest digits,
plainly when it lies in the range from 10^-4 up to 10^16, otherwise with one digit before the
point and a power of ten, whose exponent has a sign and at least two digits.

* `Number.toText` — the writing of a number in a document;
* `Float64.toText` — the writing of a floating-point value, where a whole one keeps `.0`.
-/
import JsonQuery.Text
import JsonQuery.Number.Shortest

namespace JsonQuery
namespace Decimal

/-- Decimal digits without the zeros at their end, of which one stays if there is nothing
else. -/
def trimDigits (digits : List Char) : List Char :=
  match (digits.reverse.dropWhile (· == '0')).reverse with
  | [] => ['0']
  | trimmed => trimmed

/-- Digits with a point in front of the digit of index `point`, padded with zeros on either
side; there is always a digit on both sides of the point. -/
def plain (digits : List Char) (point : Int) : List Char :=
  match point with
  | .ofNat p =>
    if p = 0 then '0' :: '.' :: digits
    else if digits.length ≤ p then
      digits ++ List.replicate (p - digits.length) '0' ++ ['.', '0']
    else digits.take p ++ '.' :: digits.drop p
  | .negSucc p => '0' :: '.' :: List.replicate (p + 1) '0' ++ digits

/-- An exponent with its sign and at least two digits. -/
def exponentDigits (e : Int) : List Char :=
  let digits := Nat.toDigits 10 e.natAbs
  (if e < 0 then '-' else '+') :: List.replicate (2 - digits.length) '0' ++ digits

/-- One digit, the others after a point, and a power of ten. -/
def scientific (digits : List Char) (e : Int) : List Char :=
  let fraction := if digits.tail.isEmpty then [] else '.' :: digits.tail
  digits.take 1 ++ fraction ++ 'e' :: exponentDigits e

/-- A decimal in plain or scientific writing, whichever suits its size. -/
def toChars (d : Decimal) : List Char :=
  let all := Nat.toDigits 10 d.digits
  let point : Int := all.length + d.exponent
  let digits := trimDigits all
  if d.digits = 0 then ['0', '.', '0']
  else if -4 < point ∧ point ≤ 16 then plain digits point
  else scientific digits (point - 1)

end Decimal

/-- The minus sign of a negative number. -/
def minusSign (negative : Bool) : Text :=
  if negative then [.scalar '-'] else []

/-- A number with a point or a power of ten, also when it is whole. -/
def Number.toFloatText (x : Number) : Text :=
  minusSign x.negative ++ Text.ofChars (Number.shortest x.magnitude).toChars

/-- A number as it stands in a document. -/
def Number.toText (x : Number) : Text :=
  if x.isWhole then Text.ofInt x.truncate else x.toFloatText

/-- A floating-point value; the values that are not numbers have names. -/
def Float64.toText : Float64 → Text
  | .finite x => x.toFloatText
  | .infinite negative => minusSign negative ++ Text.ofChars ['i', 'n', 'f']
  | .nan => Text.ofChars ['n', 'a', 'n']

end JsonQuery
