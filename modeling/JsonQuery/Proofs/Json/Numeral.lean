/-
Numerals are read to their end.

A numeral is read to its end whatever stands behind it, as long as that cannot belong to it.

* `WholeDigits` — the digits of an integer part;
* `Reader.EndsNumeral` — the texts that no numeral goes on into;
* `Reader.numeral_whole`, `Reader.numeral_fraction`, `Reader.numeral_exponent` — numerals of each
  form are read as their value.
-/
import JsonQuery.Json.Reader
import JsonQuery.Proofs.Text.Decimal

namespace JsonQuery

open Text

/-! ### The parts of a numeral -/

/-- Digits of an integer part: one zero, or a run that starts with another digit. -/
structure WholeDigits (cs : List Char) : Prop where
  digits : ∀ c ∈ cs, c.isDigit = true
  ne_nil : cs ≠ []
  zero : cs.head? = some '0' → cs = ['0']

theorem WholeDigits.zero_alone : WholeDigits ['0'] :=
  ⟨List.forall_mem_singleton.mpr rfl, nofun, fun _ => rfl⟩

theorem WholeDigits.of_ne {c : Char} {cs : List Char} (h : ∀ d ∈ c :: cs, d.isDigit = true)
    (h0 : c ≠ '0') : WholeDigits (c :: cs) :=
  ⟨h, nofun, fun hc => absurd (Option.some.inj hc) h0⟩

theorem wholeDigits_toDigits (n : Nat) : WholeDigits (Nat.toDigits 10 n) := by
  refine ⟨isDigit_toDigits n, Nat.toDigits_ne_nil, fun h => ?_⟩
  by_cases hn : n = 0
  · subst hn
    exact Nat.toDigits_zero 10
  · exact absurd h (head?_toDigits_ne hn)

/-- An integer part has no sign of its own. -/
theorem WholeDigits.ne_minus {cs : List Char} (h : WholeDigits cs) (r u : Text) :
    ofChars cs ++ r ≠ .scalar '-' :: u := by
  intro hu
  cases cs with
  | nil => exact h.ne_nil rfl
  | cons c cs =>
    cases (List.cons.inj hu).1
    exact absurd (h.digits '-' List.mem_cons_self) (by decide)

namespace Reader

/-- A text that no numeral goes on into. -/
def EndsNumeral (t : Text) : Prop :=
  ∀ c ∈ t.head?, c.isDigit = false ∧ c ≠ .scalar '.' ∧ c ≠ .scalar 'e' ∧ c ≠ .scalar 'E'

theorem EndsNumeral.digits {t : Text} (h : EndsNumeral t) : EndsDigits t :=
  fun c hc => (h c hc).1

theorem takeWhole_append {cs : List Char} {t : Text} (h : WholeDigits cs) (ht : EndsDigits t) :
    takeWhole (ofChars cs ++ t) = some (ofChars cs, t) := by
  have ht := takeDigits_append (isDigit_ofChars h.digits) ht
  unfold takeWhole
  split
  · next u hu =>
    cases cs with
    | nil => exact absurd rfl h.ne_nil
    | cons c cs =>
      obtain ⟨hc, rfl⟩ := List.cons.inj hu
      cases hc
      obtain rfl := (List.cons.inj (h.zero rfl)).2
      rfl
  · split
    · next hd =>
      rw [ht] at hd
      exact absurd (List.map_eq_nil_iff.mp (Prod.ext_iff.mp hd).1) h.ne_nil
    · next hd =>
      rw [← hd, ht]

theorem takeFraction_append {cs : List Char} {t : Text} (hd : ∀ c ∈ cs, c.isDigit = true)
    (hn : cs ≠ []) (ht : EndsDigits t) :
    takeFraction (.scalar '.' :: (ofChars cs ++ t)) = some (ofChars cs, t) := by
  rw [takeFraction, takeDigits_append (isDigit_ofChars hd) ht]
  cases cs with
  | nil => exact absurd rfl hn
  | cons c cs => rfl

theorem takeFraction_eq_none {t : Text} (ht : ∀ c ∈ t.head?, c ≠ .scalar '.') :
    takeFraction t = none := by
  unfold takeFraction
  split
  · exact absurd rfl (ht _ rfl)
  · rfl

theorem takeExponent_exponentDigits (e : Int) {t : Text} (ht : EndsDigits t) :
    takeExponent (.scalar 'e' :: (ofChars (Decimal.exponentDigits e) ++ t)) = some (e, t) := by
  let cs := List.replicate (2 - (Nat.toDigits 10 e.natAbs).length) '0' ++ Nat.toDigits 10 e.natAbs
  have hd : ∀ c ∈ cs, c.isDigit = true := by
    intro c hc
    rcases List.mem_append.mp hc with hc | hc
    · rw [List.eq_of_mem_replicate hc]
      rfl
    · exact isDigit_toDigits _ c hc
  have hv : digitsValue (ofChars cs) = e.natAbs := by
    rw [digitsValue_ofChars, Nat.ofDigitChars_append, Nat.ofDigitChars_replicate_zero, Nat.mul_zero,
      Nat.ofDigitChars_ten_toDigits]
  have hn : ofChars cs ≠ [] := by
    rw [ofChars, ne_eq, List.map_eq_nil_iff, List.append_eq_nil_iff]
    exact fun h => Nat.toDigits_ne_nil h.2
  have hs : takeSign (ofChars (Decimal.exponentDigits e) ++ t) =
      (decide (e < 0), ofChars cs ++ t) := by
    by_cases he : e < 0
    · simp only [Decimal.exponentDigits, he, if_true, decide_true]
      rfl
    · simp only [Decimal.exponentDigits, he, if_false, decide_false]
      rfl
  simp only [takeExponent, true_or, if_true, hs, takeDigits_append (isDigit_ofChars hd) ht, hv]
  generalize ofChars cs = ds at hn
  cases ds with
  | nil => exact absurd rfl hn
  | cons c ds =>
    simp only [decide_eq_true_eq]
    congr 2
    split <;> omega

theorem takeExponent_eq_none {t : Text}
    (ht : ∀ c ∈ t.head?, c ≠ .scalar 'e' ∧ c ≠ .scalar 'E') : takeExponent t = none := by
  cases t with
  | nil => rfl
  | cons c t =>
    obtain ⟨he, hE⟩ := ht c rfl
    exact if_neg fun h => h.elim he hE

/-! ### Numerals -/

/-- A numeral is what its parts say. -/
theorem numeral_parts (negative : Bool) {cs : List Char} {r fs rest rest' : Text} {e : Int}
    (h : WholeDigits cs) (hr : EndsDigits r) (hf : (takeFraction r).getD ([], r) = (fs, rest))
    (hx : (takeExponent rest).getD (0, rest) = (e, rest')) :
    numeral (minusSign negative ++ (ofChars cs ++ r)) =
      if (takeFraction r).isNone && (takeExponent rest).isNone then
        if intDigitLimit < (ofChars cs).length then .error (.tooManyDigits (ofChars cs).length)
        else
          let n : Int := digitsValue (ofChars cs)
          .ok (.int (if negative then -n else n), rest')
      else
        let d : Decimal := ⟨digitsValue (ofChars cs ++ fs), e - fs.length⟩
        .ok (.float (d.toFloat negative), rest') := by
  unfold numeral
  split
  · next negative' body hm =>
    have hb : negative' = negative ∧ body = ofChars cs ++ r := by
      cases negative with
      | true =>
        cases hm
        exact ⟨rfl, rfl⟩
      | false =>
        rw [minusSign, if_neg Bool.false_ne_true, List.nil_append] at hm
        split at hm
        · next hu => exact absurd hu (h.ne_minus r _)
        · cases hm
          exact ⟨rfl, rfl⟩
    obtain ⟨rfl, rfl⟩ := hb
    rw [takeWhole_append h hr]
    dsimp only
    rw [hf]
    dsimp only
    rw [hx]

/-- A numeral without fraction and exponent is an integer. -/
theorem numeral_whole (negative : Bool) {cs : List Char} {t : Text} (h : WholeDigits cs)
    (hl : cs.length ≤ intDigitLimit) (ht : EndsNumeral t) :
    numeral (minusSign negative ++ (ofChars cs ++ t)) =
      .ok (.int (if negative then -(Nat.ofDigitChars 10 cs 0 : Int) else Nat.ofDigitChars 10 cs 0),
        t) := by
  have hl' : ¬ intDigitLimit < (ofChars cs).length := by
    rw [ofChars, List.length_map]
    omega
  have hf : takeFraction t = none := takeFraction_eq_none fun c hc => (ht c hc).2.1
  have hx : takeExponent t = none := takeExponent_eq_none fun c hc => (ht c hc).2.2
  have hp := numeral_parts negative h ht.digits (congrArg (Option.getD · ([], t)) hf)
    (congrArg (Option.getD · (0, t)) hx)
  rw [hp, hf, hx, ← digitsValue_ofChars]
  exact if_neg hl'

/-- A numeral with a fraction or an exponent is a floating-point value. -/
theorem numeral_float (negative : Bool) {cs : List Char} (fs : List Char)
    {r rest rest' : Text} {e : Int}
    (h : WholeDigits cs) (hr : EndsDigits r)
    (hf : (takeFraction r).getD ([], r) = (ofChars fs, rest))
    (hx : (takeExponent rest).getD (0, rest) = (e, rest'))
    (hs : ((takeFraction r).isNone && (takeExponent rest).isNone) = false) :
    numeral (minusSign negative ++ (ofChars cs ++ r)) =
      .ok (.float (Decimal.toFloat negative ⟨Nat.ofDigitChars 10 (cs ++ fs) 0, e - fs.length⟩),
        rest') := by
  rw [numeral_parts negative h hr hf hx, hs, if_neg Bool.false_ne_true, ← ofChars_append,
    digitsValue_ofChars, ofChars, List.length_map]

theorem endsDigits_cons {c : CodePoint} (h : c.isDigit = false) (t : Text) :
    EndsDigits (c :: t) := by
  intro d hd
  cases hd
  exact h

theorem numeral_fraction (negative : Bool) {cs fs : List Char} {t : Text} (h : WholeDigits cs)
    (hfs : ∀ c ∈ fs, c.isDigit = true) (hn : fs ≠ []) (ht : EndsNumeral t) :
    numeral (minusSign negative ++ (ofChars (cs ++ '.' :: fs) ++ t)) =
      .ok (.float (Decimal.toFloat negative ⟨Nat.ofDigitChars 10 (cs ++ fs) 0, -fs.length⟩),
        t) := by
  have hf := takeFraction_append hfs hn ht.digits
  have hx : takeExponent t = none := takeExponent_eq_none fun c hc => (ht c hc).2.2
  rw [ofChars_append, List.append_assoc, ← Int.zero_sub, ofChars_cons, List.cons_append]
  exact numeral_float negative fs h (endsDigits_cons rfl (ofChars fs ++ t))
    (congrArg (Option.getD · _) hf) (congrArg (Option.getD · (0, t)) hx)
    (congrArg (fun o : Option _ => o.isNone && _) hf)

/-- The fraction of a numeral with an exponent, left out where it has no digits. -/
theorem numeral_exponent (negative : Bool) {cs fs : List Char} (e : Int) {t : Text}
    (h : WholeDigits cs) (hfs : ∀ c ∈ fs, c.isDigit = true) (ht : EndsNumeral t) :
    numeral (minusSign negative ++
        (ofChars (cs ++ (if fs.isEmpty then [] else '.' :: fs) ++ 'e' :: Decimal.exponentDigits e)
          ++ t)) =
      .ok (.float (Decimal.toFloat negative ⟨Nat.ofDigitChars 10 (cs ++ fs) 0, e - fs.length⟩),
        t) := by
  have hx := takeExponent_exponentDigits e ht.digits
  rw [List.append_assoc, ofChars_append, List.append_assoc]
  cases fs with
  | nil =>
    have hf : takeFraction (.scalar 'e' :: (ofChars (Decimal.exponentDigits e) ++ t)) = none :=
      takeFraction_eq_none fun c hc => by
        cases hc
        decide
    rw [List.isEmpty_nil, if_pos rfl, List.nil_append, ofChars_cons, List.cons_append]
    exact numeral_float negative [] h (endsDigits_cons rfl _)
      (congrArg (Option.getD · _) hf) (congrArg (Option.getD · _) hx) (by rw [hf, hx]; rfl)
  | cons f fs =>
    have hf := takeFraction_append (t := .scalar 'e' :: (ofChars (Decimal.exponentDigits e) ++ t))
      hfs nofun (endsDigits_cons rfl _)
    rw [List.isEmpty_cons, if_neg Bool.false_ne_true, List.cons_append, ofChars_cons '.',
      ofChars_append (f :: fs), ofChars_cons 'e', List.cons_append, List.append_assoc]
    exact numeral_float negative (f :: fs) h (endsDigits_cons rfl _)
      (congrArg (Option.getD · _) hf) (congrArg (Option.getD · _) hx)
      (congrArg (fun o : Option _ => o.isNone && _) hf)

end Reader

end JsonQuery
