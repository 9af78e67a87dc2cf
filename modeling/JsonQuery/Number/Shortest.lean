/-
The fewest decimal digits that tell a number from all others.

The exact decimal expansion of a number ends, so its digits are those of one natural number.
For 1, 2, … 17 digits the two decimals next to the number are tried, by reading them back; the
first count at which one of them gives the number wins, of two hits the nearer one, and of two
equally near ones the even one.

* `Number.magnitude_shortest` — the digits chosen read back as the number.
-/
import JsonQuery.Number.Decimal

namespace JsonQuery

-- Powers of naturals are those of the core library, whatever else is imported.
attribute [local instance (2000)] instPowNat

namespace Number

/-- The exact value of a magnitude: it has at most as many decimal places as bits after the
point. -/
def expansion (m : Nat) : Decimal :=
  ⟨m * 5 ^ fractionBits, -(fractionBits : Int)⟩

/-- The neighbours of a decimal when its last `dropped` digits are given up, and the one to
take if `accept` allows it. -/
def neighbour? (exact : Decimal) (dropped : Nat) (accept : Decimal → Bool) : Option Decimal :=
  let power := 10 ^ dropped
  let q := exact.digits / power
  let r := exact.digits % power
  let below : Decimal := ⟨q, exact.exponent + dropped⟩
  let above : Decimal := ⟨q + 1, exact.exponent + dropped⟩
  if accept below && (!accept above || 2 * r < power || (2 * r == power && q % 2 == 0)) then
    some below
  else if accept above then
    some above
  else
    none

/-- The shortest decimal, of at most 17 digits, that is nearest to a magnitude and no other;
the whole expansion if there is none. -/
def shortest (m : Nat) : Decimal :=
  let exact := expansion m
  let length := (Nat.toDigits 10 exact.digits).length
  let accept (d : Decimal) : Bool := d.magnitude == m
  ((List.range 17).findSome? fun n => neighbour? exact (length - (n + 1)) accept).getD exact

theorem accept_of_neighbour? {exact : Decimal} {dropped : Nat} {accept : Decimal → Bool}
    {d : Decimal} (h : neighbour? exact dropped accept = some d) : accept d := by
  simp only [neighbour?] at h
  split at h
  · next hc =>
    simp only [Bool.and_eq_true] at hc
    exact Option.some.inj h ▸ hc.1
  · split at h
    · next hc => exact Option.some.inj h ▸ hc
    · simp at h

theorem exactRatio_neg (digits : Nat) {places : Nat} (h : 0 < places) :
    Decimal.exactRatio ⟨digits, -(places : Int)⟩ = (digits * one, 10 ^ places) := by
  obtain ⟨k, rfl⟩ : ∃ k, places = k + 1 := ⟨places - 1, by omega⟩
  rfl

theorem exactRatio_expansion (m : Nat) :
    (expansion m).exactRatio = (m * 5 ^ fractionBits * one, 10 ^ fractionBits) :=
  exactRatio_neg _ (by decide)

/-- The exact expansion is never cut off. -/
theorem moderate_expansion {m : Nat} (hm : m ≠ 0) : (expansion m).Moderate := by
  have hpow : 2 ^ (2 * fractionBits) ≤ 5 ^ fractionBits := by
    rw [Nat.pow_mul]
    exact Nat.pow_le_pow_left (by decide) _
  have hle : 2 ^ (2 * fractionBits) ≤ m * 5 ^ fractionBits :=
    Nat.le_trans hpow (Nat.le_mul_of_pos_left _ (Nat.pos_of_ne_zero hm))
  have hlog : 2 * fractionBits ≤ (m * 5 ^ fractionBits).log2 := by
    rw [Nat.le_log2]
    · exact hle
    · exact Nat.ne_of_gt (Nat.lt_of_lt_of_le (Nat.two_pow_pos _) hle)
  constructor
  · simp only [expansion, fractionBits]
    omega
  · simp only [expansion, fractionBits] at *
    omega

/-- The exact expansion of a number reads back as it. -/
theorem magnitude_expansion {m : Nat} (hm : Fits m) : (expansion m).magnitude = m := by
  by_cases h0 : m = 0
  · subst h0
    have : (expansion 0).ratio = (0, 1) := by
      rw [Decimal.ratio, if_pos (by simp [expansion])]
    rw [Decimal.magnitude, this]
    rfl
  have hdigits : (expansion m).digits ≠ 0 :=
    Nat.mul_ne_zero h0 (Nat.ne_of_gt (Nat.pow_pos (by decide)))
  rw [Decimal.magnitude, Decimal.ratio_of_moderate (moderate_expansion h0) hdigits,
    exactRatio_expansion]
  have : m * 5 ^ fractionBits * one = m * 10 ^ fractionBits := by
    rw [Nat.mul_assoc, one, ← Nat.mul_pow]
  simp only [this]
  exact roundRatio_mul hm (Nat.pow_pos (by decide))

/-- The digits chosen read back as the number. -/
theorem magnitude_shortest {m : Nat} (hm : Fits m) : (shortest m).magnitude = m := by
  simp only [shortest]
  cases h : (List.range 17).findSome? fun n => neighbour? (expansion m)
      ((Nat.toDigits 10 (expansion m).digits).length - (n + 1)) fun d => d.magnitude == m with
  | none => exact magnitude_expansion hm
  | some d =>
    obtain ⟨n, -, hn⟩ := List.exists_of_findSome?_eq_some h
    exact eq_of_beq (accept_of_neighbour? hn)

end Number
end JsonQuery
