/-
Digits of hexadecimal numbers.

* `Text.hex_succ` — the last digit of a number is that of its remainder;
* `Text.hexDigitsValue?_hex`, `Text.length_hex` — a number that fits into a width is written with as
  many digits, which stand for that number;
* `Text.isIdentifierPart_of_hexDigitsValue?` — digits are letters and digits.
-/
import JsonQuery.Text

namespace JsonQuery

-- Powers of naturals are those of the core library, whatever else is imported.
attribute [local instance (2000)] instPowNat

namespace Text

theorem hexValue?_digitChar :
    ∀ {k : Nat}, k < 16 → (CodePoint.scalar k.digitChar).hexValue? = some k := by
  decide

theorem hex_one {n : Nat} (h : n < 16) : hex 1 n = [.scalar n.digitChar] := by
  rw [hex, Nat.toDigits_of_lt_base h]
  rfl

/-- In front of the last digit stands what is left of the number without it. -/
theorem hex_succ (width n : Nat) :
    hex (width + 2) n = hex (width + 1) (n / 16) ++ [.scalar (n % 16).digitChar] := by
  rw [hex, hex]
  rcases Nat.lt_or_ge n 16 with h | h
  · rw [Nat.toDigits_of_lt_base h, Nat.div_eq_of_lt h, Nat.mod_eq_of_lt h,
      Nat.toDigits_of_lt_base (by decide)]
    simp [ofChars, List.replicate_succ', Nat.digitChar]
  · rw [Nat.toDigits_of_base_le (by decide) h]
    simp [ofChars]

theorem length_hex (width : Nat) {n : Nat} (h : n < 16 ^ (width + 1)) :
    (hex (width + 1) n).length = width + 1 := by
  induction width generalizing n with
  | zero =>
    rw [hex_one h]
    rfl
  | succ width ih =>
    rw [hex_succ, List.length_append, ih (by omega)]
    rfl

theorem hexDigitsValue?_concat (ds : Text) (d : CodePoint) :
    hexDigitsValue? (ds ++ [d]) =
      (hexDigitsValue? ds).bind fun n => d.hexValue?.map (16 * n + ·) := by
  simp [hexDigitsValue?, List.foldlM_append]

/-- A number is read back from its digits. -/
theorem hexDigitsValue?_hex (width : Nat) {n : Nat} (h : n < 16 ^ (width + 1)) :
    hexDigitsValue? (hex (width + 1) n) = some n := by
  induction width generalizing n with
  | zero =>
    have hnil : hexDigitsValue? [] = some 0 := rfl
    rw [hex_one h, ← List.nil_append [_], hexDigitsValue?_concat, hnil, Option.bind_some,
      hexValue?_digitChar h, Option.map_some, Nat.mul_zero, Nat.zero_add]
  | succ width ih =>
    rw [hex_succ, hexDigitsValue?_concat, ih (by omega), Option.bind_some,
      hexValue?_digitChar (Nat.mod_lt n (by decide)), Option.map_some, Nat.div_add_mod]

theorem isIdentifierPart_of_hexDigitsValue? {ds : Text} {n : Nat}
    (h : hexDigitsValue? ds = some n) : ∀ d ∈ ds, d.isIdentifierPart = true := by
  rw [hexDigitsValue?] at h
  generalize 0 = m at h
  induction ds generalizing m with
  | nil => exact nofun
  | cons d ds ih =>
    rw [List.foldlM_cons] at h
    obtain ⟨k, hk, h⟩ := Option.bind_eq_some_iff.mp h
    obtain ⟨v, hv, -⟩ := Option.map_eq_some_iff.mp hk
    refine List.forall_mem_cons.mpr ⟨?_, ih k h⟩
    simp only [CodePoint.hexValue?] at hv
    simp only [CodePoint.isIdentifierPart, CodePoint.isIdentifierStart, CodePoint.isDigit,
      Bool.or_eq_true, Bool.and_eq_true, decide_eq_true_eq]
    split at hv
    · omega
    split at hv
    · omega
    split at hv
    · omega
    · cases hv

end Text
end JsonQuery
