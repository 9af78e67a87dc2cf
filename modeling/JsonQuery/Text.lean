/-
Text as a sequence of code points.

Strings of a document may hold surrogates that stand alone, which `String` cannot, so a text
is a list of `CodePoint`s.  Offsets, lengths, order and reversal all count code points.

* `CodePoint.toNat_injective` — a code point is determined by its number, so the order of
  texts (`Text` is ordered as a list) is by code point number;
* `Text.toString?_ofString` — a text made from a `String` gives that `String` back.
-/
namespace JsonQuery

/-- One code point: a Unicode scalar value, or the `n`-th of the 2048 surrogates. -/
inductive CodePoint where
  | scalar (c : Char)
  | surrogate (n : Fin 0x800)
  deriving DecidableEq, Inhabited

namespace CodePoint

/-- The number of a code point. -/
def toNat : CodePoint → Nat
  | .scalar c => c.toNat
  | .surrogate n => 0xD800 + n.val

/-- The code point of a number; a number that names none gives NUL. -/
def ofNat (n : Nat) : CodePoint :=
  if h : 0xD800 ≤ n ∧ n < 0xE000 then
    .surrogate ⟨n - 0xD800, by omega⟩
  else
    .scalar (Char.ofNat n)

theorem toNat_scalar_not_surrogate (c : Char) : ¬ (0xD800 ≤ c.toNat ∧ c.toNat < 0xE000) := by
  have h := c.valid
  simp only [UInt32.isValidChar, Nat.isValidChar] at h
  simp only [Char.toNat]
  omega

theorem toNat_injective {a b : CodePoint} (h : a.toNat = b.toNat) : a = b := by
  match a, b with
  | .scalar a, .scalar b => exact congrArg _ (Char.toNat_inj.1 h)
  | .surrogate m, .surrogate n =>
    simp only [toNat] at h
    exact congrArg _ (Fin.ext (by omega))
  | .scalar a, .surrogate n =>
    have := toNat_scalar_not_surrogate a
    simp only [toNat] at h
    omega
  | .surrogate m, .scalar b =>
    have := toNat_scalar_not_surrogate b
    simp only [toNat] at h
    omega

instance : LT CodePoint := ⟨fun a b => a.toNat < b.toNat⟩

instance (a b : CodePoint) : Decidable (a < b) :=
  inferInstanceAs (Decidable (a.toNat < b.toNat))

/-- The character of a scalar value. -/
def char? : CodePoint → Option Char
  | .scalar c => some c
  | .surrogate _ => none

/-- The digits `0` to `9`. -/
def isDigit (c : CodePoint) : Bool :=
  48 ≤ c.toNat && c.toNat ≤ 57

/-- The letters and the underscore, which an identifier may start with. -/
def isIdentifierStart (c : CodePoint) : Bool :=
  let n := c.toNat
  (97 ≤ n && n ≤ 122) || (65 ≤ n && n ≤ 90) || n == 95

/-- The code points that an identifier may go on with. -/
def isIdentifierPart (c : CodePoint) : Bool :=
  c.isIdentifierStart || c.isDigit

/-- The number that a digit stands for, and 0 for other code points. -/
def digitValue (c : CodePoint) : Nat :=
  c.toNat - 48

/-- The number that a hexadecimal digit stands for. -/
def hexValue? (c : CodePoint) : Option Nat :=
  let n := c.toNat
  if 48 ≤ n ∧ n ≤ 57 then some (n - 48)
  else if 97 ≤ n ∧ n ≤ 102 then some (n - 87)
  else if 65 ≤ n ∧ n ≤ 70 then some (n - 55)
  else none

/-- Whether a code point is the first half of a surrogate pair. -/
def isHighSurrogate (n : Nat) : Bool :=
  0xD800 ≤ n && n < 0xDC00

/-- Whether a code point is the second half of a surrogate pair. -/
def isLowSurrogate (n : Nat) : Bool :=
  0xDC00 ≤ n && n < 0xE000

/-- The number of the scalar value that a surrogate pair stands for. -/
def joinSurrogates (high low : Nat) : Nat :=
  0x10000 + (high - 0xD800) * 0x400 + (low - 0xDC00)

end CodePoint

/-- A text is a list of code points. -/
abbrev Text := List CodePoint

namespace Text

/-- The text of some characters. -/
def ofChars (cs : List Char) : Text :=
  cs.map .scalar

/-- The text of a string. -/
def ofString (s : String) : Text :=
  ofChars s.toList

instance : Coe String Text := ⟨ofString⟩

/-- The string of a text without surrogates. -/
def toString? (t : Text) : Option String :=
  (t.mapM CodePoint.char?).map String.ofList

theorem mapM_char?_ofChars (cs : List Char) : (ofChars cs).mapM CodePoint.char? = some cs := by
  induction cs with
  | nil => rfl
  | cons c cs ih =>
    rw [ofChars] at ih
    simp [ofChars, CodePoint.char?, ih]

theorem toString?_ofString (s : String) : toString? (ofString s) = some s := by
  simp [toString?, ofString, mapM_char?_ofChars]

/-- A natural number in decimal. -/
def ofNat (n : Nat) : Text :=
  ofChars (Nat.toDigits 10 n)

/-- An integer in decimal, with a minus sign when it is negative. -/
def ofInt : Int → Text
  | .ofNat n => ofNat n
  | .negSucc n => .scalar '-' :: ofNat (n + 1)

/-- The number that a run of digits stands for. -/
def digitsValue (digits : Text) : Nat :=
  digits.foldl (fun n c => 10 * n + c.digitValue) 0

/-- The number that a run of hexadecimal digits stands for, if all of them are such digits. -/
def hexDigitsValue? (digits : Text) : Option Nat :=
  digits.foldlM (fun n c => c.hexValue?.map (16 * n + ·)) 0

/-- A natural number in lower-case hexadecimal, with zeros in front up to a width. -/
def hex (width n : Nat) : Text :=
  let digits := Nat.toDigits 16 n
  ofChars (List.replicate (width - digits.length) '0' ++ digits)

/-- Whether `part` occurs somewhere in a text. -/
def occursIn (part : Text) : Text → Bool
  | [] => part.isEmpty
  | c :: t => part.isPrefixOf (c :: t) || occursIn part t

/-- The pieces between the code points equal to `separator`, one more than it occurs. -/
def splitOn (separator : CodePoint) : Text → List Text
  | [] => [[]]
  | c :: t =>
    if c = separator then [] :: splitOn separator t
    else match splitOn separator t with
      | [] => [[c]]
      | piece :: pieces => (c :: piece) :: pieces

end Text
end JsonQuery
