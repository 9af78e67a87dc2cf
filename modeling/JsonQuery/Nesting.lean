/-
How deep things may be nested.

Documents, expressions and evaluations are worked on from the outside in, with more frames on the
stack of the host for each level.  The stack holds a number of frames, and what would need more of
them is refused.  How many a level takes differs from one task to the other: two for a node that is
parsed or evaluated, or for a level of a document that is read or written; one for a line of an
outline; three and more for a comparison (`Data.frames`).

* `stackFrames` — the frames that a task finds on the stack;
* `nestingLimit` — the levels that may be open at a time where each of them takes two.
-/
namespace JsonQuery

/-- The frames that the stack of the host holds. -/
def hostFrames : Nat := 1000

/-- The frames that the program around a task has taken, about as many as it takes at most. -/
def takenFrames : Nat := 40

/-- The frames that a task finds on the stack. -/
def stackFrames : Nat := hostFrames - takenFrames

/-- The number of levels of two frames each that may be open at a time. -/
def nestingLimit : Nat := stackFrames / 2

end JsonQuery
