/-
Rounding sees the value of a decimal and nothing else.

* `Number.roundRatio_congr` — equal quotients round to the same magnitude;
* `Decimal.toFloat_eq` — the cut-offs of exponents change nothing;
* `Decimal.toFloat_shift` — zeros at the end of the digits may be given to the exponent.
-/
import JsonQuery.Number.Shortest

namespace JsonQuery

-- Powers of naturals are those of the core library, whatever else is imported.
attribute [local instance (2000)] instPowNat

namespace Number

/-- A quotient rounds the same in higher terms. -/
theorem roundRatio_mul_right (num den : Nat) {c : Nat} (hc : 0 < c) :
    roundRatio (num * c) (den * c) = roundRatio num den := by
  simp only [roundRatio, Nat.mul_div_mul_right _ _ hc]
  generalize 2 ^ ((num / den).log2 - 52) = step
  have hd : den * c * step = den * step * c := Nat.mul_right_comm den c step
  have hr : 2 * (num % (den * step) * c) = 2 * (num % (den * step)) * c := by
    rw [Nat.mul_assoc]
  simp only [hd, Nat.mul_div_mul_right _ _ hc, Nat.mul_mod_mul_right, hr,
    Nat.mul_lt_mul_right hc, Nat.mul_left_inj (Nat.ne_of_gt hc)]

/-- Equal quotients round to the same magnitude. -/
theorem roundRatio_congr {num den num' den' : Nat} (h : num * den' = num' * den) (hd : 0 < den)
    (hd' : 0 < den') : roundRatio num den = roundRatio num' den' := by
  rw [← roundRatio_mul_right num den hd', ← roundRatio_mul_right num' den' hd, h,
    Nat.mul_comm den' den]

/-- What is less than half a unit rounds to zero. -/
theorem roundRatio_eq_zero {num den : Nat} (h : 2 * num < den) : roundRatio num den = 0 := by
  have hq : num / den = 0 := Nat.div_eq_of_lt (by omega)
  have hs : 2 ^ (Nat.log2 0 - 52) = 1 := rfl
  simp only [roundRatio, hq, hs, Nat.mul_one, Nat.mod_eq_of_lt (by omega : num < den)]
  rw [if_neg (by omega)]

/-- Rounding takes nothing below a power of two. -/
theorem two_pow_le_roundRatio {k num : Nat} (hk : 52 ≤ k) (h : 2 ^ k ≤ num) :
    2 ^ k ≤ roundRatio num 1 := by
  have hpos : num ≠ 0 := Nat.ne_of_gt (Nat.lt_of_lt_of_le (Nat.two_pow_pos _) h)
  have hlog : k ≤ num.log2 := (Nat.le_log2 hpos).mpr h
  have hstep : 2 ^ num.log2 = 2 ^ 52 * 2 ^ (num.log2 - 52) := by
    rw [← Nat.pow_add, Nat.add_sub_cancel' (Nat.le_trans hk hlog)]
  have hq : 2 ^ 52 ≤ num / 2 ^ (num.log2 - 52) := by
    rw [Nat.le_div_iff_mul_le (Nat.two_pow_pos _), ← hstep]
    exact Nat.log2_self_le hpos
  have hle : 2 ^ k ≤ num / 2 ^ (num.log2 - 52) * 2 ^ (num.log2 - 52) :=
    calc 2 ^ k ≤ 2 ^ num.log2 := Nat.pow_le_pow_right (by decide) hlog
      _ = 2 ^ 52 * 2 ^ (num.log2 - 52) := hstep
      _ ≤ _ := Nat.mul_le_mul_right _ hq
  simp only [roundRatio, Nat.div_one, Nat.one_mul]
  split
  · rw [Nat.add_mul]
    exact Nat.le_trans hle (Nat.le_add_right _ _)
  · exact hle

theorem bound_le_roundRatio {num : Nat} (h : bound ≤ num) : bound ≤ roundRatio num 1 := by
  have hk : 52 ≤ 1024 + fractionBits := Nat.le_trans (by decide) (Nat.le_add_right 1024 _)
  rw [bound] at h ⊢
  exact two_pow_le_roundRatio hk h

theorem ofRatio?_congr {num den num' den' : Nat} (negative : Bool)
    (h : roundRatio num den = roundRatio num' den') :
    ofRatio? negative num den = ofRatio? negative num' den' := by
  by_cases hlt : roundRatio num' den' < bound
  · simp only [ofRatio?, h, hlt, ↓reduceDIte]
  · simp only [ofRatio?, h, hlt, ↓reduceDIte]

/-- A quotient that rounds to the bound or more is no number. -/
theorem ofRatio?_eq_none {num den : Nat} (negative : Bool) (h : bound ≤ roundRatio num den) :
    ofRatio? negative num den = none := by
  have h' : ¬ roundRatio num den < bound := Nat.not_lt_of_le h
  simp only [ofRatio?, h', ↓reduceDIte]

end Number

theorem Float64.ofRatio_congr {num den num' den' : Nat} (negative : Bool)
    (h : Number.roundRatio num den = Number.roundRatio num' den') :
    ofRatio negative num den = ofRatio negative num' den' := by
  unfold ofRatio
  rw [Number.ofRatio?_congr negative h]

theorem Float64.ofRatio_of_le {num den : Nat} (negative : Bool)
    (h : Number.bound ≤ Number.roundRatio num den) :
    ofRatio negative num den = .infinite negative := by
  unfold ofRatio
  rw [Number.ofRatio?_eq_none negative h]

namespace Decimal

theorem exactRatio_pos (d : Decimal) : 0 < d.exactRatio.2 := by
  unfold exactRatio
  split
  · exact Nat.one_pos
  · exact Nat.pow_pos (by decide)

theorem two_pow_le_ten_pow {k e : Nat} (h : k ≤ 3 * e) : 2 ^ k ≤ 10 ^ e :=
  calc 2 ^ k ≤ 2 ^ (3 * e) := Nat.pow_le_pow_right (by decide) h
    _ = 8 ^ e := Nat.pow_mul 2 3 e
    _ ≤ 10 ^ e := Nat.pow_le_pow_left (by decide) e

/-- What is too large for its power of ten to be formed is too large for a number. -/
theorem bound_le_exactRatio {digits : Nat} {e : Int} (hd : digits ≠ 0) (he : 400 < e) :
    Number.bound ≤ (exactRatio ⟨digits, e⟩).1 ∧ (exactRatio ⟨digits, e⟩).2 = 1 := by
  obtain ⟨e, rfl⟩ : ∃ n : Nat, e = n := ⟨e.toNat, by omega⟩
  have hle : 10 ^ e ≤ digits * 10 ^ e := Nat.le_mul_of_pos_left _ (Nat.pos_of_ne_zero hd)
  have hk : 1024 ≤ 3 * e := by omega
  refine ⟨?_, rfl⟩
  rw [Number.bound]
  generalize 1024 = k at hk
  rw [Nat.pow_add]
  exact Nat.mul_le_mul_right _ (Nat.le_trans (two_pow_le_ten_pow hk) hle)

/-- What is too small for its power of ten to be formed rounds to zero. -/
theorem two_mul_exactRatio_lt {digits : Nat} {e : Int} (he : e + digits.log2 + 400 < 0) :
    2 * (exactRatio ⟨digits, e⟩).1 < (exactRatio ⟨digits, e⟩).2 := by
  obtain ⟨e, rfl⟩ : ∃ n : Nat, e = .negSucc n := ⟨(-e - 1).toNat, by omega⟩
  have h10 : 2 ^ (digits.log2 + 1) * (2 * Number.one) ≤ 10 ^ (e + 1) := by
    rw [Number.one, ← Nat.pow_succ', ← Nat.pow_add]
    refine two_pow_le_ten_pow ?_
    rw [Number.fractionBits]
    omega
  refine Nat.lt_of_lt_of_le ?_ h10
  show 2 * (digits * Number.one) < _
  rw [Nat.mul_left_comm]
  exact Nat.mul_lt_mul_of_pos_right Nat.lt_log2_self (Nat.mul_pos (by decide) Number.one_pos)

theorem toFloat_of_digits_eq_zero (negative : Bool) {d : Decimal} (h : d.digits = 0) :
    d.toFloat negative = .ofRatio negative 0 1 := by
  rw [toFloat, ratio, if_pos h]

/-- The cut-offs of exponents change nothing. -/
theorem toFloat_eq (negative : Bool) (d : Decimal) :
    d.toFloat negative = .ofRatio negative d.exactRatio.1 d.exactRatio.2 := by
  by_cases hd : d.digits = 0
  · have h0 : d.exactRatio.1 = 0 := by
      unfold exactRatio
      split <;> simp [hd]
    have hpos := d.exactRatio_pos
    rw [toFloat_of_digits_eq_zero negative hd, h0]
    refine Float64.ofRatio_congr negative ?_
    rw [Number.roundRatio_eq_zero (by omega), Number.roundRatio_eq_zero (by omega)]
  · rw [toFloat, ratio, if_neg hd]
    by_cases hm : d.Moderate
    · rw [if_pos hm]
    · rw [if_neg hm]
      by_cases he : 0 < d.exponent
      · have he' : 400 < d.exponent := by
          simp only [Moderate, Classical.not_and_iff_not_or_not] at hm
          omega
        obtain ⟨hle, h1⟩ := bound_le_exactRatio hd he'
        rw [if_pos he, h1, Float64.ofRatio_of_le negative (Number.bound_le_roundRatio hle)]
        exact Float64.ofRatio_of_le negative (Number.bound_le_roundRatio (Nat.le_refl _))
      · have he' : d.exponent + d.digits.log2 + 400 < 0 := by
          simp only [Moderate, Classical.not_and_iff_not_or_not] at hm
          omega
        rw [if_neg he]
        refine Float64.ofRatio_congr negative ?_
        rw [Number.roundRatio_eq_zero (two_mul_exactRatio_lt he'),
          Number.roundRatio_eq_zero (by decide)]

/-- Zeros at the end of the digits may be given to the exponent. -/
theorem toFloat_shift (negative : Bool) (digits k : Nat) (e : Int) :
    toFloat negative ⟨digits * 10 ^ k, e⟩ = toFloat negative ⟨digits, e + k⟩ := by
  rw [toFloat_eq, toFloat_eq]
  refine Float64.ofRatio_congr negative
    (Number.roundRatio_congr ?_ (exactRatio_pos _) (exactRatio_pos _))
  -- The magnitude of one is never worked out.
  obtain ⟨u, hu⟩ : ∃ u, Number.one = u := ⟨_, rfl⟩
  cases e with
  | ofNat e =>
    show digits * 10 ^ k * 10 ^ e * Number.one * 1 = digits * 10 ^ (e + k) * Number.one * 1
    rw [Nat.mul_assoc digits, ← Nat.pow_add, Nat.add_comm k]
  | negSucc e =>
    rcases Nat.lt_or_ge e k with h | h
    · obtain ⟨j, rfl⟩ : ∃ j, k = e + 1 + j := ⟨k - (e + 1), by omega⟩
      have hj : Int.negSucc e + ((e + 1 + j : Nat) : Int) = (j : Nat) := by omega
      rw [hj]
      show digits * 10 ^ (e + 1 + j) * Number.one * 1 =
        digits * 10 ^ j * Number.one * 10 ^ (e + 1)
      rw [hu, Nat.pow_add, Nat.mul_one]
      ac_rfl
    · obtain ⟨j, rfl⟩ : ∃ j, e = k + j := ⟨e - k, by omega⟩
      have hj : Int.negSucc (k + j) + (k : Int) = .negSucc j := by omega
      rw [hj]
      show digits * 10 ^ k * Number.one * 10 ^ (j + 1) =
        digits * Number.one * 10 ^ (k + j + 1)
      rw [hu, Nat.add_assoc, Nat.pow_add 10 k]
      ac_rfl

end Decimal
end JsonQuery
