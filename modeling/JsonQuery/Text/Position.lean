/-
Places in a text of several lines.

An offset outside the text counts as its nearest end.  Lines and columns count from zero, and a
line feed ends its line.

* `Text.lineAndColumn` — the line of an offset and its distance from the start of that line;
* `Text.caret` — that line, and under it a caret below the column.
-/
import JsonQuery.Text

namespace JsonQuery
namespace Text

/-- The line feed. -/
def lineFeed : CodePoint := .scalar '\n'

/-- An offset moved into the range from 0 to the length of a text. -/
def clampOffset (t : Text) (offset : Int) : Nat :=
  min offset.toNat t.length

/-- The line of an offset, and the column in it. -/
def lineAndColumn (t : Text) (offset : Int) : Nat × Nat :=
  let before := t.take (t.clampOffset offset)
  (before.count lineFeed, (before.reverse.takeWhile (· != lineFeed)).length)

/-- The line of an offset, and on a line of its own a caret below the column. -/
def caret (t : Text) (offset : Int) : Text :=
  let (line, column) := t.lineAndColumn offset
  (t.splitOn lineFeed).getD line [] ++
    lineFeed :: List.replicate column (.scalar ' ') ++ [.scalar '^']

theorem splitOn_ne_nil (separator : CodePoint) (t : Text) : t.splitOn separator ≠ [] := by
  cases t with
  | nil => simp [splitOn]
  | cons c t =>
    rw [splitOn]
    split
    · simp
    · split <;> simp

/-- A text in which every carriage return, alone or before a line feed, became a line feed. -/
def unifyLineEnds : Text → Text
  | [] => []
  | .scalar '\r' :: .scalar '\n' :: t => lineFeed :: unifyLineEnds t
  | .scalar '\r' :: t => lineFeed :: unifyLineEnds t
  | c :: t => c :: unifyLineEnds t

end Text
end JsonQuery
