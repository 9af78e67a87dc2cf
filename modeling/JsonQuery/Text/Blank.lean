/-
Blank code points, those that Unicode counts as white space.

* `Text.strip` — a text without the blanks at its two ends.
-/
import JsonQuery.Text

namespace JsonQuery

/-- The code points that are blank. -/
def blanks : List Nat :=
  [9, 10, 11, 12, 13, 28, 29, 30, 31, 32, 133, 160, 5760, 8192, 8193, 8194, 8195, 8196, 8197,
    8198, 8199, 8200, 8201, 8202, 8232, 8233, 8239, 8287, 12288]

/-- Whether a code point is blank. -/
def CodePoint.isBlank (c : CodePoint) : Bool :=
  blanks.contains c.toNat

/-- A text without the blanks at its two ends. -/
def Text.strip (t : Text) : Text :=
  let rest := t.dropWhile CodePoint.isBlank
  (rest.reverse.dropWhile CodePoint.isBlank).reverse

end JsonQuery
