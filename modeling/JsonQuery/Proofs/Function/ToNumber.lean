/-
Numbers from strings.

The function that makes a string a number goes through its text as the reader of documents goes
through a numeral.  The two differ in integers: the reader forms the integer, refuses one that has
too many digits and takes the nearest number to it, while the function takes the text for a decimal.
Integers that are refused are too large for a number, and others give the same one, but for the
sign of zero.

* `Builtin.Matching`, `Builtin.matching` — what a text is as a decimal and as a numeral;
* `Builtin.number?_rel` — the numbers of both are the same;
* `Builtin.invoke_toNumber` — which strings are made numbers, and which ones.
-/
import JsonQuery.Eval
import JsonQuery.Proofs.Json.Single
import JsonQuery.Proofs.Number.Range

namespace JsonQuery

-- Powers of naturals are those of the core library, whatever else is imported.
attribute [local instance (2000)] instPowNat

/-! ### Integers as decimals -/

theorem one_le_of_isDigit {c : Char} (h : c.isDigit = true) (hne : c ≠ '0') :
    1 ≤ c.toNat - '0'.toNat := by
  have hle : '0'.toNat ≤ c.toNat := (Bool.and_eq_true_iff.mp h).1 |> of_decide_eq_true
  have hne' : c.toNat ≠ '0'.toNat := fun heq => hne (Char.toNat_inj.mp heq)
  omega

/-- Digits that do not start with a zero stand for no less than a power of ten. -/
theorem WholeDigits.ten_pow_le {cs : List Char} (h : WholeDigits cs) {k : Nat} (hk : 0 < k)
    (hl : k < cs.length) : 10 ^ k ≤ Text.digitsValue (Text.ofChars cs) := by
  cases cs with
  | nil => exact absurd rfl h.ne_nil
  | cons c cs =>
    have hne : c ≠ '0' := by
      rintro rfl
      have hcs := List.cons.inj (h.zero rfl)
      rw [hcs.2, List.length_singleton] at hl
      omega
    have hfirst := one_le_of_isDigit (h.digits c List.mem_cons_self) hne
    rw [Text.digitsValue_ofChars, Nat.ofDigitChars_cons, Nat.ofDigitChars_eq_ofDigitChars_zero,
      Nat.mul_zero, Nat.zero_add]
    calc 10 ^ k ≤ 10 ^ cs.length := Nat.pow_le_pow_right (by decide) (Nat.le_of_lt_succ hl)
      _ ≤ 10 ^ cs.length * (c.toNat - '0'.toNat) := Nat.le_mul_of_pos_right _ hfirst
      _ ≤ _ := Nat.le_add_right _ _

/-- The number that a floating-point value is, if it is finite. -/
def Float64.number? : Float64 → Option Number
  | .finite x => some x
  | .infinite _ => none
  | .nan => none

theorem Float64.number?_ofRatio (negative : Bool) (num den : Nat) :
    (Float64.ofRatio negative num den).number? = Number.ofRatio? negative num den := by
  unfold ofRatio
  generalize Number.ofRatio? negative num den = o
  cases o <;> rfl

theorem Numeral.toOption_toNumber_int (i : Int) :
    (Numeral.int i).toNumber.toOption = Number.ofInt? i := by
  cases hi : Number.ofInt? i with
  | none => rw [toNumber_int_eq_error hi]; rfl
  | some x => rw [toNumber_int hi]; rfl

theorem Numeral.toOption_toNumber_float (x : Float64) :
    (Numeral.float x).toNumber.toOption = x.number? := by
  cases x <;> rfl

namespace Number

/-- The sign counts only where the magnitude is not zero. -/
theorem ofRatio?_rel {negative negative' : Bool} {num den : Nat}
    (h : roundRatio num den = 0 ∨ negative = negative') :
    Option.Rel (fun x y : Number => x.same y = true) (ofRatio? negative num den)
      (ofRatio? negative' num den) := by
  rw [ofRatio?, ofRatio?]
  split
  · refine .some ?_
    rw [same, beq_iff_eq, toInt, toInt]
    rcases h with h | rfl
    · simp [h]
    · rfl
  · exact .none

/-- An integer as a decimal and the integer itself give the same number, but for the sign
of zero. -/
theorem ofInt?_rel (negative : Bool) (digits : Nat) :
    Option.Rel (fun x y : Number => x.same y = true) (ofRatio? negative (digits * one) 1)
      (ofInt? (if negative then -(digits : Int) else digits)) := by
  have habs : (if negative then -(digits : Int) else digits).natAbs = digits := by
    split <;> omega
  rw [ofInt?, habs]
  refine ofRatio?_rel ?_
  by_cases hz : digits = 0
  · exact .inl (roundRatio_eq_zero (by simp [hz]))
  · right
    cases negative with
    | false => rw [if_neg Bool.false_ne_true, eq_comm, decide_eq_false_iff_not]; omega
    | true => rw [if_pos rfl, eq_comm, decide_eq_true_iff]; omega

end Number

namespace Builtin

/-! ### Decimals and numerals -/

/-- What a text is as a decimal, with its sign, and what is read from it as a numeral. -/
inductive Matching : Option (Bool × Decimal) → Except Reader.Fault (Numeral × Text) → Prop
  | neither {r} : (∀ n, r ≠ .ok (n, [])) → Matching none r
  | float {negative d} : Matching (some (negative, d)) (.ok (.float (d.toFloat negative), []))
  | int {negative} {digits : Nat} : Matching (some (negative, ⟨digits, 0⟩))
      (.ok (.int (if negative then -(digits : Int) else digits), []))
  | tooMany {negative digits count} : 10 ^ Text.intDigitLimit ≤ digits →
      Matching (some (negative, ⟨digits, 0⟩)) (.error (.tooManyDigits count))

/-- Whole digits alone are an integer, if they are not too many. -/
theorem matching_whole (negative : Bool) {cs : List Char} (h : WholeDigits cs) :
    Matching (some (negative, ⟨Text.digitsValue (Text.ofChars cs), 0⟩))
      (if Text.intDigitLimit < (Text.ofChars cs).length then
        .error (.tooManyDigits (Text.ofChars cs).length)
      else
        .ok (.int (if negative then -(Text.digitsValue (Text.ofChars cs) : Int)
          else Text.digitsValue (Text.ofChars cs)), [])) := by
  split
  · next hl => exact .tooMany (h.ten_pow_le (by decide) (by simpa [Text.ofChars] using hl))
  · exact .int

/-- A text that is a decimal is a numeral as a whole, unless it is an integer with too
many digits. -/
theorem matching (t : Text) : Matching (decimal? t) (Reader.numeral t) := by
  generalize hd : decimal? t = o, hn : Reader.numeral t = r
  unfold decimal? at hd
  unfold Reader.numeral at hn
  split at hd
  next negative body hm =>
  split at hn
  next negative' body' hm' =>
  -- Both cut off the sign in the same way, and go on with the same text.
  obtain ⟨rfl, rfl⟩ : negative = negative' ∧ body = body' := by
    split at hm
    · cases hm
      cases hm'
      exact ⟨rfl, rfl⟩
    · next hne =>
      split at hm'
      · exact absurd rfl (hne _)
      · cases hm
        cases hm'
        exact ⟨rfl, rfl⟩
  subst hd hn
  cases hw : Reader.takeWhole body with
  | none =>
    refine .neither ?_
    rintro n ⟨⟩
  | some p =>
    obtain ⟨whole, u⟩ := p
    obtain ⟨-, cs, rfl, hcs⟩ := Reader.takeWhole_eq_some hw
    obtain ⟨⟨fs, mid⟩, hf⟩ : ∃ p, (Reader.takeFraction u).getD ([], u) = p := ⟨_, rfl⟩
    obtain ⟨⟨e, rest⟩, hx⟩ : ∃ p, (Reader.takeExponent mid).getD (0, mid) = p := ⟨_, rfl⟩
    dsimp only
    rw [hf]
    dsimp only
    rw [hx]
    dsimp only
    -- Only a text that is used up is a decimal; what is left of others, the reader hands on.
    cases rest with
    | nil =>
      rw [List.isEmpty_nil, if_pos rfl]
      split
      · next hnone =>
        obtain ⟨hfn, hxn⟩ := Bool.and_eq_true_iff.mp hnone
        rw [Option.isNone_iff_eq_none] at hfn hxn
        rw [hfn] at hf
        rw [hxn] at hx
        cases hf
        cases hx
        rw [List.append_nil]
        exact matching_whole negative hcs
      · exact .float
    | cons c rest =>
      refine .neither ?_
      intro n
      split
      · split <;> rintro ⟨⟩
      · rintro ⟨⟩

/-- The number that a whole text is when it is read as a numeral. -/
def wholeNumber? : Except Reader.Fault (Numeral × Text) → Option Number
  | .ok (n, []) => n.toNumber.toOption
  | .ok (_, _ :: _) => none
  | .error _ => none

/-- The number that a decimal with a sign is, if it is not too large. -/
def decimalNumber? (p : Bool × Decimal) : Option Number :=
  (p.2.toFloat p.1).number?

theorem decimalNumber?_whole (negative : Bool) (digits : Nat) :
    decimalNumber? (negative, ⟨digits, 0⟩) = Number.ofRatio? negative (digits * Number.one) 1 := by
  have hratio : Decimal.exactRatio ⟨digits, 0⟩ = (digits * 10 ^ 0 * Number.one, 1) := rfl
  rw [decimalNumber?, Decimal.toFloat_eq, Float64.number?_ofRatio, hratio, Nat.pow_zero,
    Nat.mul_one]

/-- A text gives the same number as a decimal and as a numeral, but for the sign of zero. -/
theorem Matching.number?_rel {o : Option (Bool × Decimal)}
    {r : Except Reader.Fault (Numeral × Text)} (h : Matching o r) :
    Option.Rel (fun x y : Number => x.same y = true) (o.bind decimalNumber?) (wholeNumber? r) := by
  cases h with
  | neither h =>
    have hr : wholeNumber? r = none := by
      rcases r with _ | ⟨n, _ | ⟨c, rest⟩⟩
      · rfl
      · exact absurd rfl (h n)
      · rfl
    rw [hr]
    exact .none
  | @float negative d =>
    rw [wholeNumber?, Numeral.toOption_toNumber_float, Option.bind_some, decimalNumber?]
    cases (d.toFloat negative).number? with
    | none => exact .none
    | some x => exact .some (beq_self_eq_true x.toInt)
  | int =>
    rw [wholeNumber?, Numeral.toOption_toNumber_int, Option.bind_some, decimalNumber?_whole]
    exact Number.ofInt?_rel _ _
  | @tooMany negative digits _ hle =>
    have hrel := Number.ofInt?_rel negative digits
    have hnone : Number.ofInt? (if negative then -(digits : Int) else digits) = none := by
      rw [Number.ofInt?_eq_none_iff]
      have := Nat.le_trans (Number.tooLarge_le_ten_pow (by decide)) hle
      split <;> omega
    rw [hnone] at hrel
    rw [Option.bind_some, decimalNumber?_whole]
    generalize Number.ofRatio? negative (digits * Number.one) 1 = x at hrel
    cases hrel
    exact .none

/-! ### The function -/

theorem toNumber_str (c : Call) (t : Text) :
    toNumber c [.str t] = pure (((decimal? t).bind decimalNumber?).elim .null .num) := by
  simp only [toNumber, unary]
  cases decimal? t with
  | none => rfl
  | some p =>
    rw [Option.bind_some, decimalNumber?]
    dsimp only
    generalize p.2.toFloat p.1 = x
    cases x <;> rfl

theorem wholeNumber?_eq_some {t : Text} {y : Number} :
    wholeNumber? (Reader.numeral t) = some y ↔ t.Unpadded ∧ Json.read t = .ok (.num y) := by
  constructor
  · intro h
    cases hr : Reader.numeral t with
    | error e =>
      rw [hr] at h
      cases h
    | ok p =>
      obtain ⟨n, _ | ⟨c, rest⟩⟩ := p
      · rw [hr, wholeNumber?] at h
        have ht := Reader.unpadded_of_numeral hr
        refine ⟨ht, (Json.read_eq_num_iff ht).mpr ⟨n, hr, ?_⟩⟩
        generalize n.toNumber = x at h
        cases x <;> cases h
        rfl
      · rw [hr] at h
        cases h
  · rintro ⟨ht, h⟩
    obtain ⟨n, hr, hn⟩ := (Json.read_eq_num_iff ht).mp h
    rw [hr, wholeNumber?, hn]
    rfl

theorem invoke_toNumber_outcome {env : Env}
    (hr : env.registry.get? "to_number" = Registry.standard.get? "to_number")
    (steps depth : Nat) (offset : Int) (t : Text) :
    (invoke env (steps + 1) depth offset "to_number" [.str t]).outcome =
      .ok (((decimal? t).bind decimalNumber?).elim .null .num) := by
  have hget : env.registry.get? "to_number" =
      some ⟨fixed [.one .any] (.one .number), toNumber⟩ := hr.trans rfl
  rw [invoke_eq_body hget rfl]
  dsimp only
  rw [toNumber_str]
  rfl

/-- A string is made a number exactly when it has no blanks at its ends and its text says a number
as a document; the two numbers are equal.  All other strings give null. -/
theorem invoke_toNumber {env : Env}
    (hr : env.registry.get? "to_number" = Registry.standard.get? "to_number")
    (steps depth : Nat) (offset : Int) (t : Text) :
    let outcome := (invoke env (steps + 1) depth offset "to_number" [.str t]).outcome
    ((∃ x, outcome = .ok (.num x)) ↔ t.Unpadded ∧ ∃ y, Json.read t = .ok (.num y)) ∧
      (∀ x y, outcome = .ok (.num x) → Json.read t = .ok (.num y) →
        Value.same (.num x) (.num y) = true) ∧
      ((¬ ∃ x, outcome = .ok (.num x)) → outcome = .ok .null) := by
  intro outcome
  have hout : outcome = _ := invoke_toNumber_outcome hr steps depth offset t
  have hread := fun y => wholeNumber?_eq_some (t := t) (y := y)
  have hrel := (matching t).number?_rel
  rw [hout]
  generalize (decimal? t).bind decimalNumber? = a, wholeNumber? (Reader.numeral t) = b at hrel hread
  cases hrel with
  | none =>
    have hnot : ¬ (t.Unpadded ∧ ∃ y, Json.read t = .ok (.num y)) := by
      rintro ⟨ht, y, hy⟩
      cases (hread y).mpr ⟨ht, hy⟩
    refine ⟨iff_of_false ?_ hnot, ?_, fun _ => rfl⟩
    · rintro ⟨x, ⟨⟩⟩
    · rintro x y ⟨⟩
  | @some x y hxy =>
    obtain ⟨ht, hy⟩ := (hread y).mp rfl
    refine ⟨iff_of_true ⟨x, rfl⟩ ⟨ht, y, hy⟩, ?_, fun hnot => absurd ⟨x, rfl⟩ hnot⟩
    intro x' y' hx' hy'
    cases hx'
    cases hy.symm.trans hy'
    exact hxy

/-- Zero with a sign, which is the other zero in a document, a number with a blank behind it, and an
integer with a zero in front. -/
theorem invoke_toNumber_zero :
    let env : Env := ⟨[], .standard, 8, .alike⟩
    let outcome (t : Text) := (invoke env 1 0 0 "to_number" [.str t]).outcome
    env.registry.get? "to_number" = Registry.standard.get? "to_number" ∧
      (∃ x, outcome "-0" = .ok (.num x) ∧ Json.read "-0" = .ok (.num .zero) ∧
        Value.same (.num x) (.num .zero) = true) ∧
      outcome "1 " = .ok .null ∧ outcome "01" = .ok .null := by
  intro env outcome
  have hr : env.registry.get? "to_number" = Registry.standard.get? "to_number" := rfl
  have hzero : (Numeral.int 0).toNumber = .ok .zero :=
    Numeral.toNumber_int (by decide +kernel)
  have hunpadded : Text.Unpadded "-0" := by
    constructor <;> rintro c ⟨⟩ <;> rfl
  have hread : Json.read "-0" = .ok (.num .zero) :=
    (Json.read_eq_num_iff hunpadded).mpr ⟨.int 0, rfl, hzero⟩
  refine ⟨hr, ?_, ?_, ?_⟩
  · obtain ⟨hiff, hsame, -⟩ := invoke_toNumber hr 0 0 0 "-0"
    obtain ⟨x, hx⟩ := hiff.mpr ⟨hunpadded, _, hread⟩
    exact ⟨x, hx, hread, hsame x _ hx hread⟩
  · obtain ⟨hiff, -, hnull⟩ := invoke_toNumber hr 0 0 0 "1 "
    refine hnull fun h => ?_
    have hlast := (hiff.mp h).1.2 (.scalar ' ') rfl
    cases hlast
  · obtain ⟨hiff, -, hnull⟩ := invoke_toNumber hr 0 0 0 "01"
    refine hnull fun h => ?_
    obtain ⟨-, y, hy⟩ := hiff.mp h
    cases hy

end Builtin
end JsonQuery
