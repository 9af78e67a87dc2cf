/-
Texts shown between quotes.

A quoted text stands between single quotes, or between double quotes when it holds a single
quote and no double one.  The backslash and the enclosing quote are escaped by a backslash,
line feed, carriage return and tab have letters, and any other code point that is not printable
is written by its number, in two, four or eight hexadecimal digits.  Bytes are shown likewise
after the letter `b`, those from 0x80 on by their numbers.

* `Text.quoted` — a text between its quotes.
-/
import JsonQuery.Text.Printable

namespace JsonQuery

/-- The quote that encloses a shown text. -/
def Text.quoteMark (t : Text) : Char :=
  if t.contains (.scalar '\x27') && !t.contains (.scalar '\x22') then '\x22' else '\x27'

/-- A code point of a shown text between quotes `mark`. -/
def CodePoint.shown (mark : Char) (c : CodePoint) : Text :=
  if c = .scalar mark ∨ c = .scalar '\\' then [.scalar '\\', c]
  else if c = .scalar '\n' then Text.ofChars ['\\', 'n']
  else if c = .scalar '\r' then Text.ofChars ['\\', 'r']
  else if c = .scalar '\t' then Text.ofChars ['\\', 't']
  else if c.isPrintable then [c]
  else if c.toNat < 0x100 then Text.ofChars ['\\', 'x'] ++ Text.hex 2 c.toNat
  else if c.toNat < 0x10000 then Text.ofChars ['\\', 'u'] ++ Text.hex 4 c.toNat
  else Text.ofChars ['\\', 'U'] ++ Text.hex 8 c.toNat

/-- A text between quotes, with everything escaped that would not be seen as it is. -/
def Text.quoted (t : Text) : Text :=
  let mark := t.quoteMark
  .scalar mark :: t.flatMap (·.shown mark) ++ [.scalar mark]

/-- A byte of shown bytes between quotes `mark`. -/
def Text.shownByte (mark : Char) (b : UInt8) : Text :=
  if b < 0x80 then (CodePoint.ofNat b.toNat).shown mark
  else Text.ofChars ['\\', 'x'] ++ Text.hex 2 b.toNat

/-- Bytes between quotes after the letter `b`. -/
def Text.quotedBytes (bytes : List UInt8) : Text :=
  let mark := Text.quoteMark (bytes.map fun b => .ofNat b.toNat)
  Text.ofChars ['b', mark] ++ bytes.flatMap (Text.shownByte mark) ++ [CodePoint.scalar mark]

end JsonQuery
