/-
Numbers: the finite values of IEEE 754 binary64.

A number is a sign and a magnitude, counted in units of 2^-1074, the smallest positive value, so
every operation is exact arithmetic on naturals followed by one rounding.

* `Number.roundRatio` — the nearest magnitude to a quotient, of two nearest the even one;
* `Number.representable_roundRatio` — what it gives always fits into 53 bits;
* `Number.ofRatio?` — a quotient as a number, unless it is too large.
-/
namespace JsonQuery

-- Powers of naturals are those of the core library, whatever else is imported.
attribute [local instance (2000)] instPowNat

namespace Number

/-- How many bits a magnitude has after the point. -/
def fractionBits : Nat := 1074

/-- How many bits of a magnitude may be in use. -/
def precision : Nat := 53

/-- The magnitude of one. -/
def one : Nat := 2 ^ fractionBits

/-- The least magnitude that is too large. -/
def bound : Nat := 2 ^ (1024 + fractionBits)

/-- A magnitude fits when at most 53 of its bits, from the highest one down, are in use. -/
def Fits (m : Nat) : Prop := 2 ^ (m.log2 - 52) ∣ m

instance (m : Nat) : Decidable (Fits m) := inferInstanceAs (Decidable (_ ∣ _))

end Number

/-- A finite binary64 value.  Zero has two signs. -/
structure Number where
  negative : Bool
  magnitude : Nat
  fits : Number.Fits magnitude
  small : magnitude < Number.bound
  deriving DecidableEq

namespace Number

theorem fits_mul_two_pow {k : Nat} (e : Nat) (h : k ≤ 2 ^ precision) : Fits (k * 2 ^ e) := by
  unfold Fits
  by_cases hk : k = 0
  · simp [hk]
  by_cases hlt : k < 2 ^ precision
  · have hlog : (k * 2 ^ e).log2 < precision + e := by
      rw [Nat.log2_lt (Nat.mul_ne_zero hk (Nat.ne_of_gt (Nat.two_pow_pos e))), Nat.pow_add]
      exact Nat.mul_lt_mul_of_pos_right hlt (Nat.two_pow_pos e)
    rw [precision] at hlog
    exact Nat.dvd_trans (Nat.pow_dvd_pow 2 (by omega)) (Nat.dvd_mul_left _ _)
  · have hk' : k = 2 ^ precision := by omega
    subst hk'
    rw [← Nat.pow_add, Nat.log2_two_pow, precision]
    exact Nat.pow_dvd_pow 2 (by omega)

/-- The nearest magnitude that fits to `num / den`; of two nearest ones the even multiple. -/
def roundRatio (num den : Nat) : Nat :=
  let step := 2 ^ ((num / den).log2 - 52)
  let q := num / (den * step)
  let r := num % (den * step)
  if den * step < 2 * r ∨ (2 * r = den * step ∧ q % 2 = 1) then (q + 1) * step else q * step

theorem roundRatio_quotient_lt (num den : Nat) :
    num / (den * 2 ^ ((num / den).log2 - 52)) < 2 ^ precision := by
  rw [← Nat.div_div_eq_div_mul, Nat.div_lt_iff_lt_mul (Nat.two_pow_pos _), ← Nat.pow_add]
  by_cases h : num / den = 0
  · rw [h]
    exact Nat.two_pow_pos _
  · refine Nat.lt_of_lt_of_le Nat.lt_log2_self (Nat.pow_le_pow_right (by decide) ?_)
    rw [precision]
    omega

theorem representable_roundRatio (num den : Nat) : Fits (roundRatio num den) := by
  have h := roundRatio_quotient_lt num den
  unfold roundRatio
  simp only
  split
  · exact fits_mul_two_pow _ h
  · exact fits_mul_two_pow _ (Nat.le_of_lt h)

/-- A magnitude that fits is the nearest one to itself. -/
theorem roundRatio_mul {m den : Nat} (hm : Fits m) (hden : 0 < den) :
    roundRatio (m * den) den = m := by
  obtain ⟨k, hk⟩ := hm
  have hstep : 0 < 2 ^ (m.log2 - 52) := Nat.two_pow_pos _
  have hnum : m * den = den * 2 ^ (m.log2 - 52) * k := by
    conv => lhs; rw [hk]
    rw [Nat.mul_comm _ den, Nat.mul_assoc]
  unfold roundRatio
  simp only [Nat.mul_div_cancel _ hden]
  have hpos : 0 < den * 2 ^ (m.log2 - 52) := Nat.mul_pos hden hstep
  rw [hnum, Nat.mul_div_cancel_left _ hpos, Nat.mul_mod_right]
  rw [if_neg (by omega), Nat.mul_comm]
  exact hk.symm

/-- A quotient with a sign as a number, unless it is too large. -/
def ofRatio? (negative : Bool) (num den : Nat) : Option Number :=
  if h : roundRatio num den < bound then
    some ⟨negative, roundRatio num den, representable_roundRatio num den, h⟩
  else
    none

/-- Every number is read back from its own magnitude, over any denominator. -/
theorem ofRatio?_magnitude (x : Number) {den : Nat} (hden : 0 < den) :
    ofRatio? x.negative (x.magnitude * den) den = some x := by
  have h := roundRatio_mul x.fits hden
  simp only [ofRatio?, h, x.small, ↓reduceDIte]

/-- The value of a number in units, with its sign. -/
def toInt (x : Number) : Int :=
  if x.negative then -(x.magnitude : Int) else x.magnitude

/-- Numbers are equal when their values are: the sign of zero does not count. -/
def same (x y : Number) : Bool :=
  x.toInt == y.toInt

/-- The order of numbers by value. -/
def lt (x y : Number) : Bool :=
  x.toInt < y.toInt

/-- The order of numbers by value, equality included. -/
def le (x y : Number) : Bool :=
  x.toInt ≤ y.toInt

/-- An integer of units as a number, unless it is too large. -/
def ofUnits? (units : Int) : Option Number :=
  ofRatio? (decide (units < 0)) units.natAbs 1

/-- The nearest number to an integer, unless the integer is too large. -/
def ofInt? (i : Int) : Option Number :=
  ofRatio? (decide (i < 0)) (i.natAbs * one) 1

theorem one_pos : 0 < one := by
  rw [one]
  exact Nat.two_pow_pos _

theorem fits_mul_one {n : Nat} (h : n ≤ 2 ^ precision) : Fits (n * one) := by
  rw [one]
  exact fits_mul_two_pow _ h

theorem small_of_le {n : Nat} (h : n ≤ 2 ^ precision) : n * one < bound := by
  have hle : n * one ≤ 2 ^ precision * one := Nat.mul_le_mul_right _ h
  have hlt : 2 ^ precision * one < bound := by
    rw [one, bound, ← Nat.pow_add]
    exact Nat.pow_lt_pow_right (by decide) (by simp only [fractionBits]; decide)
  exact Nat.lt_of_le_of_lt hle hlt

/-- An integer of at most 53 bits, with a sign that zero has too. -/
def ofSmallNat (negative : Bool) (n : Nat) (h : n ≤ 2 ^ precision) : Number :=
  ⟨negative, n * one, fits_mul_one h, small_of_le h⟩

/-- Zero without a sign. -/
def zero : Number := ofSmallNat false 0 (by decide)

/-- Whether a number is an integer. -/
def isWhole (x : Number) : Bool :=
  x.magnitude % one == 0

/-- The integer part of a number, toward zero. -/
def truncate (x : Number) : Int :=
  if x.negative then -((x.magnitude / one : Nat) : Int) else ((x.magnitude / one : Nat) : Int)

theorem log2_lt_of_not_isWhole {x : Number} (h : x.isWhole = false) :
    x.magnitude.log2 < 1126 := by
  false_or_by_contra
  have hdvd : one ∣ x.magnitude := by
    rw [one]
    refine Nat.dvd_trans (Nat.pow_dvd_pow 2 ?_) x.fits
    rw [fractionBits]
    omega
  rw [isWhole, Nat.mod_eq_zero_of_dvd hdvd] at h
  exact absurd h (by decide)

/-- The integer part of a number with a fraction leaves a bit for rounding it away from zero. -/
theorem div_one_lt_of_not_isWhole {x : Number} (h : x.isWhole = false) :
    x.magnitude / one < 2 ^ precision := by
  rw [one, Nat.div_lt_iff_lt_mul (Nat.two_pow_pos _), ← Nat.pow_add]
  refine Nat.lt_of_lt_of_le Nat.lt_log2_self (Nat.pow_le_pow_right (by decide) ?_)
  have := log2_lt_of_not_isWhole h
  rw [fractionBits, precision]
  omega

/-- The absolute value. -/
def abs (x : Number) : Number :=
  { x with negative := false }

/-- The greatest integer that is not above a number. -/
def floor (x : Number) : Number :=
  if h : x.isWhole = false then
    ofSmallNat x.negative (x.magnitude / one + if x.negative then 1 else 0)
      (by have := div_one_lt_of_not_isWhole h; split <;> omega)
  else
    x

/-- The least integer that is not below a number. -/
def ceil (x : Number) : Number :=
  if h : x.isWhole = false then
    ofSmallNat x.negative (x.magnitude / one + if x.negative then 0 else 1)
      (by have := div_one_lt_of_not_isWhole h; split <;> omega)
  else
    x

/-- The nearest number to the quotient of a number and a count, and the number itself where the
count is zero.  A quotient is never too large. -/
def divideBy (x : Number) (count : Nat) : Number :=
  (ofRatio? x.negative x.magnitude count).getD x

end Number

/-- All binary64 values: the finite ones, two infinities and not-a-number. -/
inductive Float64 where
  | finite (x : Number)
  | infinite (negative : Bool)
  | nan
  deriving DecidableEq

/-- A quotient with a sign, infinite when it is too large. -/
def Float64.ofRatio (negative : Bool) (num den : Nat) : Float64 :=
  match Number.ofRatio? negative num den with
  | some x => .finite x
  | none => .infinite negative

end JsonQuery
