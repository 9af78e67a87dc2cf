/-
Numbers are read back as they were written.

* `Decimal.numeral_toChars` — a decimal in plain or scientific writing is read as its value;
* `Number.numeral_toFloatText`, `Reader.numeral_ofInt` — and so are a number and an integer;
* `Number.unsigned` — a number whose zero has lost its sign;
* `Number.numeral_toText`, `Number.toNumber_toNumeral` — a number as it stands in a document;
* `NumeralText` — the characters that numbers are written with.
-/
import JsonQuery.Proofs.Json.Numeral
import JsonQuery.Proofs.Number.Rounding

namespace JsonQuery

-- Powers of naturals are those of the core library, whatever else is imported.
attribute [local instance (2000)] instPowNat

open Text

/-! ### Written decimals -/

namespace Decimal

/-- Digits are those left by the trimming, and zeros. -/
theorem exists_trimDigits {all : List Char} (h : all.head? ≠ some '0') (hn : all ≠ []) :
    ∃ k, all = trimDigits all ++ List.replicate k '0' ∧ trimDigits all ≠ [] := by
  have hall : all = (all.reverse.dropWhile (· == '0')).reverse ++
      (all.reverse.takeWhile (· == '0')).reverse := by
    rw [← List.reverse_append, List.takeWhile_append_dropWhile, List.reverse_reverse]
  have hz : ∀ c ∈ (all.reverse.takeWhile (· == '0')).reverse, c = '0' := by
    intro c hc
    have := List.all_eq_true.mp List.all_takeWhile c (List.mem_reverse.mp hc)
    exact eq_of_beq this
  rw [List.eq_replicate_of_mem hz] at hall
  generalize (all.reverse.takeWhile (· == '0')).reverse.length = k at hall
  unfold trimDigits
  split
  · next hnil =>
    -- Then all digits are zeros, and so is the first one.
    rw [hnil, List.nil_append] at hall
    cases k with
    | zero => exact absurd hall hn
    | succ k =>
      rw [hall] at h
      exact absurd rfl h
  · next hcons =>
    exact ⟨k, hall, hcons⟩

theorem isDigit_zeros (n : Nat) : ∀ c ∈ List.replicate n '0', c.isDigit = true := by
  intro c hc
  rw [List.eq_of_mem_replicate hc]
  rfl

theorem ofDigitChars_zeros_append (n : Nat) (cs : List Char) :
    Nat.ofDigitChars 10 (List.replicate n '0' ++ cs) 0 = Nat.ofDigitChars 10 cs 0 := by
  rw [Nat.ofDigitChars_append, Nat.ofDigitChars_replicate_zero, Nat.mul_zero]

theorem ofDigitChars_append_zeros (cs : List Char) (n : Nat) :
    Nat.ofDigitChars 10 (cs ++ List.replicate n '0') 0 = Nat.ofDigitChars 10 cs 0 * 10 ^ n := by
  rw [Nat.ofDigitChars_append, Nat.ofDigitChars_replicate_zero, Nat.mul_comm]

section
variable (negative : Bool) {c : Char} {cs : List Char} {t : Text}
variable (hd : ∀ d ∈ c :: cs, d.isDigit = true) (h0 : c ≠ '0') (ht : Reader.EndsNumeral t)
include hd h0 ht

/-- Digits that start with no zero, with a point and zeros around them, are read as their
value. -/
theorem numeral_plain (point : Int) :
    Reader.numeral (minusSign negative ++ (ofChars (plain (c :: cs) point) ++ t)) =
      .ok (.float (toFloat negative
        ⟨Nat.ofDigitChars 10 (c :: cs) 0, point - (c :: cs).length⟩), t) := by
  have zero_append (ds : List Char) :
      Nat.ofDigitChars 10 (['0'] ++ ds) 0 = Nat.ofDigitChars 10 ds 0 := rfl
  cases point with
  | ofNat p =>
    rcases Nat.eq_zero_or_pos p with rfl | hp
    · have h := Reader.numeral_fraction negative .zero_alone hd nofun ht
      rw [zero_append] at h
      rw [plain, if_pos rfl, Int.ofNat_eq_natCast, Int.natCast_zero, Int.zero_sub]
      exact h
    · obtain ⟨p, rfl⟩ : ∃ q, p = q + 1 := ⟨p - 1, by omega⟩
      by_cases hl : (c :: cs).length ≤ p + 1
      · -- All digits stand before the point, and zeros fill the places up to it.
        obtain ⟨k, hk⟩ : ∃ k, p + 1 = (c :: cs).length + k := ⟨p + 1 - (c :: cs).length, by omega⟩
        have hw : WholeDigits ((c :: cs) ++ List.replicate k '0') :=
          .of_ne (fun d hm => (List.mem_append.mp hm).elim (hd d) (isDigit_zeros _ d)) h0
        have hv : Nat.ofDigitChars 10
            ((c :: cs) ++ List.replicate k '0' ++ List.replicate 1 '0') 0 =
              Nat.ofDigitChars 10 (c :: cs) 0 * 10 ^ (k + 1) := by
          rw [List.append_assoc, List.replicate_append_replicate, ofDigitChars_append_zeros]
        have he : (-(1 : Nat) + (k + 1 : Nat) : Int) = Int.ofNat (p + 1) - (c :: cs).length := by
          rw [Int.ofNat_eq_natCast, hk]
          omega
        have h := Reader.numeral_fraction negative hw (isDigit_zeros 1) nofun ht
        rw [hv, toFloat_shift, List.length_replicate, he] at h
        rw [plain, if_neg (Nat.succ_ne_zero p), if_pos hl, hk, Nat.add_sub_cancel_left, ← hk]
        exact h
      · have hw : WholeDigits ((c :: cs).take (p + 1)) :=
          .of_ne (fun d hm => hd d (List.mem_of_mem_take (i := p + 1) hm)) h0
        have hn : (c :: cs).drop (p + 1) ≠ [] := by
          rw [ne_eq, List.drop_eq_nil_iff]
          exact hl
        have he : (-((c :: cs).length - (p + 1) : Nat) : Int) =
            Int.ofNat (p + 1) - (c :: cs).length := by
          rw [Int.ofNat_eq_natCast]
          omega
        have h := Reader.numeral_fraction negative hw
          (fun d hm => hd d (List.mem_of_mem_drop hm)) hn ht
        rw [List.take_append_drop, List.length_drop, he] at h
        rw [plain, if_neg (Nat.succ_ne_zero p), if_neg hl]
        exact h
  | negSucc p =>
    have hfs : ∀ d ∈ List.replicate (p + 1) '0' ++ (c :: cs), d.isDigit = true := fun d hm =>
      (List.mem_append.mp hm).elim (isDigit_zeros _ d) (hd d)
    have he : (-(List.replicate (p + 1) '0' ++ (c :: cs)).length : Int) =
        Int.negSucc p - (c :: cs).length := by
      rw [List.length_append, List.length_replicate]
      omega
    have h := Reader.numeral_fraction negative .zero_alone hfs nofun ht
    rw [zero_append, ofDigitChars_zeros_append, he] at h
    exact h

/-- Digits that start with no zero are read with their power of ten. -/
theorem numeral_scientific (e : Int) :
    Reader.numeral (minusSign negative ++ (ofChars (scientific (c :: cs) e) ++ t)) =
      .ok (.float (toFloat negative
        ⟨Nat.ofDigitChars 10 (c :: cs) 0, e + 1 - (c :: cs).length⟩), t) := by
  have hw : WholeDigits [c] := .of_ne (fun d hm => hd d (List.mem_singleton.mp hm ▸ .head _)) h0
  have he : e - cs.length = e + 1 - (c :: cs).length := by
    rw [List.length_cons]
    omega
  have h := Reader.numeral_exponent negative e hw (fun d hm => hd d (List.mem_cons_of_mem _ hm)) ht
  rw [he] at h
  exact h

end

/-- A decimal is read as its value. -/
theorem numeral_toChars (negative : Bool) (d : Decimal) {t : Text} (ht : Reader.EndsNumeral t) :
    Reader.numeral (minusSign negative ++ (ofChars d.toChars ++ t)) =
      .ok (.float (d.toFloat negative), t) := by
  unfold toChars
  by_cases h0 : d.digits = 0
  · have h := Reader.numeral_fraction negative .zero_alone (isDigit_zeros 1) nofun ht
    rw [if_pos h0, toFloat_of_digits_eq_zero negative h0]
    rw [toFloat_of_digits_eq_zero negative rfl] at h
    exact h
  · rw [if_neg h0]
    -- Trimming the digits leaves the value as it is.
    obtain ⟨k, hk, hn⟩ := exists_trimDigits (head?_toDigits_ne h0) Nat.toDigits_ne_nil
    obtain ⟨c, cs, hcs⟩ := List.exists_cons_of_ne_nil hn
    rw [hcs] at hk ⊢
    have hd : ∀ x ∈ c :: cs, x.isDigit = true := fun x hx =>
      isDigit_toDigits d.digits x (hk ▸ List.mem_append_left _ hx)
    have hc : c ≠ '0' := by
      have hh := head?_toDigits_ne h0
      rw [hk] at hh
      exact fun hc => hh (congrArg some hc)
    have hv : d.digits = Nat.ofDigitChars 10 (c :: cs) 0 * 10 ^ k := by
      rw [← ofDigitChars_append_zeros, ← hk, Nat.ofDigitChars_ten_toDigits]
    have hf : d.toFloat negative = toFloat negative ⟨Nat.ofDigitChars 10 (c :: cs) 0,
        (Nat.toDigits 10 d.digits).length + d.exponent - (c :: cs).length⟩ := by
      have he : ((Nat.toDigits 10 d.digits).length + d.exponent - (c :: cs).length : Int) =
          d.exponent + k := by
        rw [hk, List.length_append, List.length_replicate]
        omega
      rw [he, ← toFloat_shift, ← hv]
    rw [hf]
    split
    · exact numeral_plain negative hd hc ht _
    · have h := numeral_scientific negative hd hc ht
        ((Nat.toDigits 10 d.digits).length + d.exponent - 1)
      rw [Int.sub_add_cancel] at h
      exact h

end Decimal

namespace Number

/-- A decimal of the magnitude of a number is that number, once it has its sign. -/
theorem toFloat_of_magnitude {d : Decimal} {x : Number} (h : d.magnitude = x.magnitude) :
    d.toFloat x.negative = .finite x := by
  have hr : roundRatio d.ratio.1 d.ratio.2 = x.magnitude := h
  have hx : ofRatio? x.negative d.ratio.1 d.ratio.2 = some x := by
    simp only [ofRatio?, hr, x.small, ↓reduceDIte]
  rw [Decimal.toFloat]
  unfold Float64.ofRatio
  rw [hx]

/-- The floating-point writing of a number is read as that number. -/
theorem numeral_toFloatText (x : Number) {t : Text} (ht : Reader.EndsNumeral t) :
    Reader.numeral (x.toFloatText ++ t) = .ok (.float (.finite x), t) := by
  rw [toFloatText, List.append_assoc, Decimal.numeral_toChars x.negative _ ht,
    toFloat_of_magnitude (magnitude_shortest x.fits)]

/-! ### Whole numbers -/

/-- A number without the sign of zero. -/
def unsigned (x : Number) : Number :=
  if x.magnitude = 0 then zero else x

theorem magnitude_zero : zero.magnitude = 0 :=
  Nat.zero_mul one

theorem toInt_zero : zero.toInt = 0 := by
  rw [toInt, magnitude_zero]
  rfl

/-- The sign of zero does not count. -/
theorem same_unsigned (x : Number) : x.same x.unsigned = true := by
  rw [same, beq_iff_eq, unsigned]
  split
  · next h =>
    rw [toInt_zero, toInt, h]
    split <;> rfl
  · rfl

theorem natAbs_truncate (x : Number) : x.truncate.natAbs = x.magnitude / one := by
  rw [truncate]
  split
  · rw [Int.natAbs_neg, Int.natAbs_natCast]
  · rw [Int.natAbs_natCast]

/-- A whole number is the one nearest to its integer part. -/
theorem ofInt?_truncate {x : Number} (h : x.isWhole = true) :
    ofInt? x.truncate = some x.unsigned := by
  have hm : x.magnitude / one * one = x.magnitude :=
    Nat.div_mul_cancel (Nat.dvd_of_mod_eq_zero (eq_of_beq h))
  have hn : decide (x.truncate < 0) = x.unsigned.negative := by
    rw [unsigned]
    split
    · next h0 =>
      rw [truncate, h0, Nat.zero_div]
      split <;> rfl
    · next h0 =>
      have hpos : 0 < x.magnitude / one := by
        refine Nat.pos_of_ne_zero fun hz => h0 ?_
        rw [← hm, hz, Nat.zero_mul]
      rw [truncate]
      cases x.negative with
      | true =>
        rw [if_pos rfl, decide_eq_true_iff]
        omega
      | false =>
        rw [if_neg Bool.false_ne_true, decide_eq_false_iff_not]
        omega
  have hu : x.magnitude = x.unsigned.magnitude * 1 := by
    rw [unsigned, Nat.mul_one]
    split
    · next h0 => rw [h0, magnitude_zero]
    · rfl
  rw [ofInt?, natAbs_truncate, hm, hn, hu]
  exact ofRatio?_magnitude x.unsigned Nat.one_pos

/-- Integer parts have few enough digits to be read. -/
theorem length_truncate_le (x : Number) :
    (Nat.toDigits 10 x.truncate.natAbs).length ≤ intDigitLimit := by
  have hk : 1024 ≤ 3 * intDigitLimit := by decide
  have hlt : x.magnitude < bound := x.small
  rw [Nat.length_toDigits_le_iff (by decide) (by decide), natAbs_truncate]
  rw [bound] at hlt
  generalize 1024 = k at hk hlt
  rw [Nat.pow_add] at hlt
  refine Nat.lt_of_lt_of_le (Nat.div_lt_of_lt_mul ?_) (Decimal.two_pow_le_ten_pow hk)
  rw [Nat.mul_comm]
  exact hlt

end Number

/-- An integer is read as it was written, unless it has too many digits. -/
theorem Reader.numeral_ofInt {i : Int} (hi : (Nat.toDigits 10 i.natAbs).length ≤ intDigitLimit)
    {t : Text} (ht : EndsNumeral t) : numeral (Text.ofInt i ++ t) = .ok (.int i, t) := by
  cases i with
  | ofNat n =>
    have h := numeral_whole false (wholeDigits_toDigits n) hi ht
    rw [Nat.ofDigitChars_ten_toDigits] at h
    exact h
  | negSucc n =>
    have h := numeral_whole true (wholeDigits_toDigits (n + 1)) hi ht
    rw [Nat.ofDigitChars_ten_toDigits] at h
    exact h

theorem Numeral.toNumber_int {i : Int} {x : Number} (h : Number.ofInt? i = some x) :
    (Numeral.int i).toNumber = .ok x := by
  -- A variable stands for the conversion, lest the match on its result work it out.
  obtain ⟨f, hf⟩ : ∃ f, f = Number.ofInt? := ⟨_, rfl⟩
  rw [← hf] at h
  rw [toNumber.eq_unfold, ← hf]
  simp only [h]

theorem Numeral.toNumber_int_eq_error {i : Int} (h : Number.ofInt? i = none) :
    (Numeral.int i).toNumber = .error (.tooLarge i) := by
  obtain ⟨f, hf⟩ : ∃ f, f = Number.ofInt? := ⟨_, rfl⟩
  rw [← hf] at h
  rw [toNumber.eq_unfold, ← hf]
  simp only [h]

namespace Number

/-- The text of a number is read as its numeral. -/
theorem numeral_toText (x : Number) {t : Text} (ht : Reader.EndsNumeral t) :
    Reader.numeral (x.toText ++ t) = .ok (x.toNumeral, t) := by
  rw [toText, toNumeral]
  cases x.isWhole with
  | true => exact Reader.numeral_ofInt x.length_truncate_le ht
  | false => exact x.numeral_toFloatText ht

/-- The numeral of a number is that number, save for the sign of zero. -/
theorem toNumber_toNumeral (x : Number) : x.toNumeral.toNumber = .ok x.unsigned := by
  rw [toNumeral]
  cases hw : x.isWhole with
  | true => exact Numeral.toNumber_int (ofInt?_truncate hw)
  | false =>
    have h0 : x.magnitude ≠ 0 := by
      intro h0
      rw [isWhole, h0, Nat.zero_mod] at hw
      exact absurd hw (by decide)
    rw [unsigned, if_neg h0]
    rfl

theorem toText_of_magnitude {x : Number} (h : x.magnitude = 0) : x.toText = Text.ofInt 0 := by
  have hw : x.isWhole = true := by simp [isWhole, h]
  have ht : x.truncate = 0 := by
    rw [truncate, h, Nat.zero_div]
    split <;> rfl
  rw [toText, if_pos hw, ht]

/-- The sign of zero is not written. -/
theorem toText_unsigned (x : Number) : x.unsigned.toText = x.toText := by
  rw [unsigned]
  split
  · next h => rw [toText_of_magnitude h, toText_of_magnitude magnitude_zero]
  · rfl

theorem toText_ne_nil (x : Number) : x.toText ≠ [] := by
  intro h
  have hn := x.numeral_toText (t := []) nofun
  rw [h] at hn
  cases hn

end Number

/-! ### The characters of numerals -/

/-- Whether a code point occurs in numerals. -/
def CodePoint.inNumeral (c : CodePoint) : Bool :=
  c.isDigit || c == .scalar '.' || c == .scalar 'e' || c == .scalar '+' || c == .scalar '-'

/-- Texts all of whose code points occur in numerals. -/
def NumeralText (t : Text) : Prop :=
  ∀ c ∈ t, c.inNumeral = true

instance (t : Text) : Decidable (NumeralText t) :=
  inferInstanceAs (Decidable (∀ c ∈ t, c.inNumeral = true))

namespace NumeralText

theorem append {s t : Text} (hs : NumeralText s) (ht : NumeralText t) : NumeralText (s ++ t) :=
  List.forall_mem_append.mpr ⟨hs, ht⟩

theorem cons {c : CodePoint} {t : Text} (hc : c.inNumeral = true) (ht : NumeralText t) :
    NumeralText (c :: t) :=
  List.forall_mem_cons.mpr ⟨hc, ht⟩

theorem of_digits {cs : List Char} (h : ∀ c ∈ cs, c.isDigit = true) :
    NumeralText (ofChars cs) := by
  intro c hc
  have hd := isDigit_ofChars h c hc
  simp [CodePoint.inNumeral, hd]

theorem minusSign (negative : Bool) : NumeralText (minusSign negative) := by
  cases negative <;> decide

theorem zeros (n : Nat) : NumeralText (ofChars (List.replicate n '0')) :=
  of_digits (Decimal.isDigit_zeros n)

section
variable {ds : List Char} (hd : ∀ c ∈ ds, c.isDigit = true)
include hd

theorem plain (point : Int) : NumeralText (ofChars (Decimal.plain ds point)) := by
  unfold Decimal.plain
  split
  · next p =>
    split
    · exact .cons (by decide) (.cons (by decide) (of_digits hd))
    split
    · rw [ofChars_append, ofChars_append]
      exact ((of_digits hd).append (zeros _)).append (by decide)
    · rw [ofChars_append]
      exact (of_digits fun c hc => hd c (List.mem_of_mem_take hc)).append
        (.cons (by decide) (of_digits fun c hc => hd c (List.mem_of_mem_drop hc)))
  · rw [List.cons_append, List.cons_append, ofChars_cons, ofChars_cons, ofChars_append]
    exact .cons (by decide) (.cons (by decide) ((zeros _).append (of_digits hd)))

theorem scientific (e : Int) : NumeralText (ofChars (Decimal.scientific ds e)) := by
  have he : NumeralText (ofChars (Decimal.exponentDigits e)) := by
    rw [Decimal.exponentDigits, List.cons_append, ofChars_cons, ofChars_append]
    refine .cons ?_ ((zeros _).append (of_digits (isDigit_toDigits _)))
    split <;> decide
  have hf : NumeralText (ofChars (if ds.tail.isEmpty then [] else '.' :: ds.tail)) := by
    split
    · decide
    · exact .cons (by decide) (of_digits fun c hc => hd c (List.mem_of_mem_tail hc))
  rw [Decimal.scientific, ofChars_append, ofChars_append, ofChars_cons]
  exact ((of_digits fun c hc => hd c (List.mem_of_mem_take hc)).append hf).append
    (.cons (by decide) he)

end

theorem toChars (d : Decimal) : NumeralText (ofChars d.toChars) := by
  unfold Decimal.toChars
  by_cases h0 : d.digits = 0
  · rw [if_pos h0]
    decide
  · obtain ⟨k, hk, -⟩ := Decimal.exists_trimDigits (head?_toDigits_ne h0) Nat.toDigits_ne_nil
    have hd : ∀ c ∈ Decimal.trimDigits (Nat.toDigits 10 d.digits), c.isDigit = true :=
      fun c hc => isDigit_toDigits d.digits c (hk ▸ List.mem_append_left _ hc)
    rw [if_neg h0]
    split
    · exact plain hd _
    · exact scientific hd _

theorem ofInt (i : Int) : NumeralText (Text.ofInt i) := by
  cases i with
  | ofNat n => exact of_digits (isDigit_toDigits n)
  | negSucc n => exact .cons (by decide) (of_digits (isDigit_toDigits (n + 1)))

/-- Numbers are written with the code points of numerals. -/
theorem toText (x : Number) : NumeralText x.toText := by
  rw [Number.toText]
  split
  · exact ofInt _
  · exact (minusSign _).append (toChars _)

end NumeralText

end JsonQuery
