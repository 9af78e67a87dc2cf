/-
Integers that are too large for a number.

The largest number lies one unit of its last place below the bound.  What is nearer to it than to
the bound rounds to a number; what lies half way between them rounds up, to the even multiple, and
is too large.

* `Number.roundRatio_lt_iff` — what rounds to less than a power of two;
* `Number.ofInt?_eq_none_iff` — which integers are no numbers.
-/
import JsonQuery.Proofs.Number.Rounding

namespace JsonQuery

-- Powers of naturals are those of the core library, whatever else is imported.
attribute [local instance (2000)] instPowNat

namespace Number

/-- Below a power of two rounding is by steps, and the last one of them is rounded up from its
middle on. -/
theorem roundRatio_lt_of_log2_eq {num k : Nat} (h : num.log2 = k + 53) :
    roundRatio num 1 < 2 ^ (k + 54) ↔ num + 2 ^ k < 2 ^ (k + 54) := by
  have hq : num / 2 ^ (k + 1) < 2 ^ 53 := by
    have hlt := roundRatio_quotient_lt num 1
    rwa [Nat.div_one, Nat.one_mul, h] at hlt
  have hnum := Nat.div_add_mod num (2 ^ (k + 1))
  have hr := Nat.mod_lt num (Nat.two_pow_pos (k + 1))
  have hbound : 2 ^ (k + 54) = 2 ^ 54 * 2 ^ k := by rw [← Nat.pow_add, Nat.add_comm]
  simp only [roundRatio, Nat.div_one, Nat.one_mul, h, hbound]
  rw [show k + 53 - 52 = k + 1 by omega]
  rw [Nat.pow_succ] at hq hnum hr ⊢
  generalize 2 ^ k = half at *
  generalize num / (half * 2) = q, num % (half * 2) = r at *
  rw [← hnum]
  by_cases hlast : q = 2 ^ 53 - 1
  · subst hlast
    split <;> omega
  · have hle : q * half ≤ (2 ^ 53 - 2) * half := Nat.mul_le_mul_right _ (by omega)
    have h1 : half * 2 * q = 2 * (q * half) := by ac_rfl
    have h2 : q * (half * 2) = 2 * (q * half) := by ac_rfl
    have h3 : (q + 1) * (half * 2) = 2 * (q * half) + 2 * half := by
      rw [Nat.add_mul, h2, Nat.one_mul, Nat.mul_comm half]
    rw [h1, h2, h3]
    generalize q * half = p at *
    split <;> omega

/-- What rounds to less than a power of two: what is below it by more than half a step. -/
theorem roundRatio_lt_iff (num k : Nat) :
    roundRatio num 1 < 2 ^ (k + 54) ↔ num + 2 ^ k < 2 ^ (k + 54) := by
  have hpos := Nat.two_pow_pos k
  have hk : 2 ^ k ≤ 2 ^ (k + 53) := Nat.pow_le_pow_right (by decide) (by omega)
  have hdouble : 2 ^ (k + 54) = 2 ^ (k + 53) * 2 := Nat.pow_succ 2 (k + 53)
  rcases Nat.lt_or_ge num (2 ^ (k + 54)) with hlt | hge
  · rcases Nat.lt_or_ge num (2 ^ (k + 53)) with hlt' | hge'
    · -- The step is at most the half of a step below the power, and no quotient is over 2^53.
      have hlog : num.log2 - 52 ≤ k := by
        by_cases hz : num = 0
        · simp [hz]
        · have := (Nat.log2_lt hz).mpr hlt'
          omega
      have hq := roundRatio_quotient_lt num 1
      rw [Nat.div_one, Nat.one_mul] at hq
      have hle : (num / 2 ^ (num.log2 - 52) + 1) * 2 ^ (num.log2 - 52) ≤ 2 ^ 53 * 2 ^ k :=
        Nat.mul_le_mul hq (Nat.pow_le_pow_right (by decide) hlog)
      have hround : roundRatio num 1 ≤ 2 ^ 53 * 2 ^ k := by
        simp only [roundRatio, Nat.div_one, Nat.one_mul]
        split
        · exact hle
        · exact Nat.le_trans (Nat.mul_le_mul_right _ (Nat.le_succ _)) hle
      have hpow : 2 ^ 53 * 2 ^ k = 2 ^ (k + 53) := by rw [← Nat.pow_add, Nat.add_comm]
      omega
    · refine roundRatio_lt_of_log2_eq ?_
      have hz : num ≠ 0 := Nat.ne_of_gt (Nat.lt_of_lt_of_le (Nat.two_pow_pos _) hge')
      have hlow := (Nat.le_log2 hz).mpr hge'
      have hhigh := (Nat.log2_lt hz).mpr hlt
      omega
  · have hround := two_pow_le_roundRatio (k := k + 54) (by omega) hge
    omega

/-- Whole numbers compare as they do when they are counted in units. -/
theorem add_lt_in_units (n k l : Nat) :
    n * one + 2 ^ (k + fractionBits) < 2 ^ (l + fractionBits) ↔ n + 2 ^ k < 2 ^ l := by
  rw [Nat.pow_add, Nat.pow_add, ← one, ← Nat.add_mul, Nat.mul_lt_mul_right one_pos]

/-- The least integer that is too large for a number, signs aside: half way between the largest
number and the bound. -/
def tooLarge : Nat := 2 ^ (1024 : Nat) - 2 ^ (970 : Nat)

theorem tooLarge_le_ten_pow {e : Nat} (h : 1024 ≤ 3 * e) : tooLarge ≤ 10 ^ e := by
  have hle := Decimal.two_pow_le_ten_pow h
  rw [tooLarge]
  omega

/-- The integers that are no numbers are those that are too large. -/
theorem ofInt?_eq_none_iff (i : Int) : ofInt? i = none ↔ tooLarge ≤ i.natAbs := by
  have hlt : roundRatio (i.natAbs * one) 1 < bound ↔
      i.natAbs + 2 ^ (970 : Nat) < 2 ^ (1024 : Nat) := by
    have hbits : 1024 + fractionBits = 970 + fractionBits + 54 := by omega
    rw [bound, hbits, roundRatio_lt_iff, ← hbits]
    exact add_lt_in_units i.natAbs 970 1024
  have hnone : ofInt? i = none ↔ ¬ roundRatio (i.natAbs * one) 1 < bound := by
    rw [ofInt?, ofRatio?]
    split
    · next h => simp [h]
    · next h => simp [h]
  have hle := Nat.pow_le_pow_right (show 0 < 2 by decide) (show 970 ≤ 1024 by decide)
  rw [hnone, hlt, tooLarge]
  omega

end Number
end JsonQuery
