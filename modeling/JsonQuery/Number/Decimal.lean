/-
Decimal numerals and the numbers nearest to them.

A decimal is a natural number times a power of ten.  Its value is a quotient of naturals, which
rounds once; exponents far outside the range of numbers are cut off before any power is formed.

* `Decimal.toFloat` — the nearest value, infinite when the decimal is too large;
* `Decimal.ratio_of_moderate` — inside the cut-offs the quotient is the exact one.
-/
import JsonQuery.Number

namespace JsonQuery

-- Powers of naturals are those of the core library, whatever else is imported.
attribute [local instance (2000)] instPowNat

/-- The number `digits · 10 ^ exponent`. -/
structure Decimal where
  digits : Nat
  exponent : Int
  deriving DecidableEq

namespace Decimal

/-- Exponents whose power of ten is worth forming.  Above them a nonzero decimal is larger than
all numbers, below them it is nearer to zero than to the least positive number. -/
def Moderate (d : Decimal) : Prop :=
  d.exponent ≤ 400 ∧ 0 ≤ d.exponent + d.digits.log2 + 400

instance (d : Decimal) : Decidable d.Moderate := inferInstanceAs (Decidable (_ ∧ _))

/-- The exact value in units, as a numerator and a denominator. -/
def exactRatio (d : Decimal) : Nat × Nat :=
  match d.exponent with
  | .ofNat e => (d.digits * 10 ^ e * Number.one, 1)
  | .negSucc e => (d.digits * Number.one, 10 ^ (e + 1))

/-- The value in units, up to a change that rounding does not see. -/
def ratio (d : Decimal) : Nat × Nat :=
  if d.digits = 0 then (0, 1)
  else if d.Moderate then d.exactRatio
  else if 0 < d.exponent then (Number.bound, 1)
  else (0, 1)

theorem ratio_of_moderate {d : Decimal} (h : d.Moderate) (hd : d.digits ≠ 0) :
    d.ratio = d.exactRatio := by
  rw [ratio, if_neg hd, if_pos h]

/-- The number nearest to a decimal with a sign, infinite when the decimal is too large. -/
def toFloat (negative : Bool) (d : Decimal) : Float64 :=
  .ofRatio negative d.ratio.1 d.ratio.2

/-- The magnitude nearest to a decimal. -/
def magnitude (d : Decimal) : Nat :=
  Number.roundRatio d.ratio.1 d.ratio.2

end Decimal
end JsonQuery
