/-
Digits of decimal numbers.

* `Text.digitsValue_ofNat` — the digits of a number stand for that number;
* `Text.ofInt_injective` — an integer is determined by how it is written;
* `Text.head?_toDigits_ne` — only zero starts with a zero;
* `Text.takeDigits_append` — a run of digits is taken up to where no digit follows.
-/
import JsonQuery.Number.Loose
import Mathlib.Data.List.TakeDrop

namespace JsonQuery

theorem CodePoint.isDigit_scalar (c : Char) : (CodePoint.scalar c).isDigit = c.isDigit := by
  rw [Bool.eq_iff_iff]
  simp only [isDigit, Char.isDigit, Bool.and_eq_true, decide_eq_true_eq, ge_iff_le,
    UInt32.le_iff_toNat_le]
  exact Iff.rfl

namespace Text

theorem ofChars_append (cs ds : List Char) : ofChars (cs ++ ds) = ofChars cs ++ ofChars ds :=
  List.map_append

theorem ofChars_cons (c : Char) (cs : List Char) : ofChars (c :: cs) = .scalar c :: ofChars cs :=
  rfl

theorem isDigit_ofChars {cs : List Char} (h : ∀ c ∈ cs, c.isDigit = true) :
    ∀ c ∈ ofChars cs, c.isDigit = true := by
  intro c hc
  obtain ⟨d, hd, rfl⟩ := List.mem_map.mp hc
  rw [CodePoint.isDigit_scalar]
  exact h d hd

theorem digitsValue_ofChars (cs : List Char) :
    digitsValue (ofChars cs) = Nat.ofDigitChars 10 cs 0 := by
  rw [digitsValue, ofChars, List.foldl_map, Nat.ofDigitChars_eq_foldl]
  rfl

theorem isDigit_toDigits (n : Nat) : ∀ c ∈ Nat.toDigits 10 n, c.isDigit = true :=
  fun _ => Nat.isDigit_of_mem_toDigits (by decide) (by decide)

theorem isDigit_ofNat (n : Nat) : ∀ c ∈ ofNat n, c.isDigit = true :=
  isDigit_ofChars (isDigit_toDigits n)

theorem ofNat_ne_nil (n : Nat) : ofNat n ≠ [] := by
  rw [ofNat, ofChars, ne_eq, List.map_eq_nil_iff]
  exact Nat.toDigits_ne_nil

/-- The digits of a number stand for that number. -/
@[simp] theorem digitsValue_ofNat (n : Nat) : digitsValue (ofNat n) = n := by
  rw [ofNat, digitsValue_ofChars]
  exact Nat.ofDigitChars_ten_toDigits

theorem ofNat_injective {m n : Nat} (h : ofNat m = ofNat n) : m = n := by
  rw [← digitsValue_ofNat m, h, digitsValue_ofNat]

/-- An integer is determined by how it is written. -/
theorem ofInt_injective {i j : Int} (h : ofInt i = ofInt j) : i = j := by
  have hsign (m n : Nat) : ofNat m ≠ .scalar '-' :: ofNat n := fun heq =>
    absurd (isDigit_ofNat m _ (heq ▸ List.mem_cons_self)) (by decide)
  match i, j with
  | .ofNat m, .ofNat n => rw [ofNat_injective h]
  | .ofNat m, .negSucc n => exact absurd h (hsign m (n + 1))
  | .negSucc m, .ofNat n => exact absurd h.symm (hsign n (m + 1))
  | .negSucc m, .negSucc n =>
    rw [Nat.succ.inj (ofNat_injective (List.cons.inj h).2)]

/-- Only zero starts with a zero. -/
theorem head?_toDigits_ne {n : Nat} (h : n ≠ 0) : (Nat.toDigits 10 n).head? ≠ some '0' := by
  induction n using Nat.strongRecOn with
  | ind n ih =>
    rcases Nat.lt_or_ge n 10 with hn | hn
    · have digits : ∀ m < 10, m ≠ 0 → m.digitChar ≠ '0' := by decide
      rw [Nat.toDigits_of_lt_base hn]
      exact fun hc => digits n hn h (Option.some.inj hc)
    · have h10 := ih (n / 10) (by omega) (by omega)
      obtain ⟨c, cs, hc⟩ := List.exists_cons_of_ne_nil (Nat.toDigits_ne_nil (b := 10) (n := n / 10))
      rw [hc] at h10
      rwa [Nat.toDigits_of_base_le (by decide) hn, hc]

/-- A text that a run of digits does not go on into. -/
def EndsDigits (t : Text) : Prop :=
  ∀ c ∈ t.head?, c.isDigit = false

/-- A run of digits is taken up to where no digit follows. -/
theorem takeDigits_append {ds t : Text} (hd : ∀ c ∈ ds, c.isDigit = true) (ht : EndsDigits t) :
    takeDigits (ds ++ t) = (ds, t) := by
  rw [takeDigits, List.span_eq_takeWhile_dropWhile, List.takeWhile_append_of_pos hd,
    List.dropWhile_append_of_pos hd]
  cases t with
  | nil => simp
  | cons c t =>
    have hc := ht c rfl
    simp [hc]

end Text
end JsonQuery
