/-
Sums of numbers, rounded once.

A sum is the number nearest to the exact total.  The running total is kept as a list of parts
of growing size whose exact sum it is; adding a number passes it through the parts, and the sum
is given up when one of the roundings on the way is too large, even if later numbers would bring
the total back into range.

* `Number.sum?` — the rounded total, unless a part became too large.
-/
import JsonQuery.Number

namespace JsonQuery
namespace Number

/-- An integer of units rounded to the nearest value that fits, unless that is too large. -/
def roundUnits? (units : Int) : Option Int :=
  (ofUnits? units).map toInt

/-- A value passed through the parts of a running total: at each part the two are replaced by
their rounded sum, which goes on, and by the rest, which stays unless it is zero. -/
def pass? : Int → List Int → Option (List Int)
  | x, [] => some (if x = 0 then [] else [x])
  | x, y :: parts => do
    let high ← roundUnits? (x + y)
    let rest ← pass? high parts
    let low := x + y - high
    some (if low = 0 then rest else low :: rest)

/-- The exact sum of some parts. -/
def total (parts : List Int) : Int :=
  parts.foldr (· + ·) 0

/-- The parts of the total of some numbers. -/
def parts? (xs : List Number) : Option (List Int) :=
  xs.foldlM (fun parts x => pass? x.toInt parts) []

/-- The number nearest to the total, unless a part of it became too large on the way. -/
def sum? (xs : List Number) : Option Number := do
  let parts ← parts? xs
  ofUnits? (total parts)

/-- The nearest number to the sum divided by the count. -/
def average? (xs : List Number) : Option Number :=
  (sum? xs).map (·.divideBy xs.length)

end Number
end JsonQuery
