/-
Slices of arrays.

A slice names a first position, a position to stop before, and a step, each of which may be
missing.  Positions below zero count from the end, positions outside the array are moved to its
nearest end, and a negative step walks backwards.

* `Slice.positions` — the positions that a slice selects in an array of some length, in order;
* `Slice.select` — the items at these positions.
-/
import JsonQuery.Data

namespace JsonQuery

/-- The three parts of a slice. -/
structure Slice where
  start : Option Int
  stop : Option Int
  step : Option Int
  deriving DecidableEq

namespace Slice

/-- The step, which is 1 when it is missing. -/
def stride (s : Slice) : Int :=
  s.step.getD 1

/-- The lowest and the highest position that a bound may name: forwards from the first item to
the end, backwards from before the first item to the last. -/
def range (s : Slice) (length : Nat) : Int × Int :=
  if s.stride < 0 then (-1, (length : Int) - 1) else (0, length)

/-- The position that a given bound names. -/
def place (s : Slice) (length : Nat) (bound : Int) : Int :=
  let (low, high) := s.range length
  let counted := if bound < 0 then bound + length else bound
  max low (min high counted)

/-- The position of the first item, if the slice is not empty. -/
def first (s : Slice) (length : Nat) : Int :=
  let (low, high) := s.range length
  match s.start with
  | some bound => s.place length bound
  | none => if s.stride < 0 then high else low

/-- The position to stop before. -/
def last (s : Slice) (length : Nat) : Int :=
  let (low, high) := s.range length
  match s.stop with
  | some bound => s.place length bound
  | none => if s.stride < 0 then low else high

/-- How many positions a slice selects; none when the step is zero. -/
def count (s : Slice) (length : Nat) : Nat :=
  let distance := if s.stride < 0 then s.first length - s.last length
    else s.last length - s.first length
  if s.stride = 0 ∨ distance ≤ 0 then 0
  else ((distance - 1) / s.stride.natAbs + 1).toNat

/-- The positions that a slice selects. -/
def positions (s : Slice) (length : Nat) : List Nat :=
  (List.range (s.count length)).map fun (k : Nat) => (s.first length + k * s.stride).toNat

/-- The items that a slice selects. -/
def select {α : Type} (s : Slice) (items : List α) : List α :=
  (s.positions items.length).filterMap (items[·]?)

end Slice

namespace Data
variable {ρ : Type}

/-- The slice of an array, and null for other values. -/
def slice (s : Slice) : Data ρ → Data ρ
  | .arr items => .arr (s.select items)
  | _ => .null

/-- The slice of a value, unless it is an array and the step is zero. -/
def slice? (s : Slice) (d : Data ρ) : Option (Data ρ) :=
  if d.kind = .array ∧ s.step = some 0 then none else some (d.slice s)

end Data
end JsonQuery
