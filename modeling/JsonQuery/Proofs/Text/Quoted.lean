/-
Texts shown between quotes are told apart.

The quote at the start tells how the code points behind it are shown, and each of them can be read
from what it is shown as, whatever stands behind it.  So texts that are shown alike are the same.

* `CodePoint.Shown` — the ways in which a code point is shown;
* `Text.shownHead?_append` — a code point is read from what it is shown as;
* `Text.quoted_injective` — a text is determined by what it is shown as;
* `Text.oneLine_quoted` — which stands on one line.
-/
import JsonQuery.Proofs.Text.Hex
import JsonQuery.Proofs.Text.Lines
import JsonQuery.Text.Quoted

namespace JsonQuery

-- Powers of naturals are those of the core library, whatever else is imported.
attribute [local instance (2000)] instPowNat

theorem CodePoint.toNat_lt (c : CodePoint) : c.toNat < 0x110000 := by
  cases c with
  | scalar c =>
    have h := c.valid
    simp only [UInt32.isValidChar, Nat.isValidChar] at h
    simp only [toNat, Char.toNat]
    omega
  | surrogate n =>
    have h := n.isLt
    simp only [toNat]
    omega

/-- The number of the digits behind a letter that stands for a code point by its number. -/
def CodePoint.digitCount? (c : CodePoint) : Option Nat :=
  if c = .scalar 'x' then some 2
  else if c = .scalar 'u' then some 4
  else if c = .scalar 'U' then some 8
  else none

/-- What any other code point behind a backslash stands for. -/
def CodePoint.ofEscape (c : CodePoint) : CodePoint :=
  if c = .scalar 'n' then .scalar '\n'
  else if c = .scalar 'r' then .scalar '\r'
  else if c = .scalar 't' then .scalar '\t'
  else c

/-- What a code point is shown as: itself, a letter behind a backslash, or its number behind one. -/
inductive CodePoint.Shown (c : CodePoint) : Text → Prop
  | plain : c ≠ .scalar '\\' → c ≠ Text.lineFeed → Shown c [c]
  | letter {d} : d.digitCount? = none → d.ofEscape = c → d ≠ Text.lineFeed →
      Shown c [.scalar '\\', d]
  | number {d width} : d.digitCount? = some (width + 1) → c.toNat < 16 ^ (width + 1) →
      Shown c (.scalar '\\' :: d :: Text.hex (width + 1) c.toNat)

theorem CodePoint.Shown.ne_nil {c : CodePoint} {u : Text} (h : c.Shown u) : u ≠ [] := by
  cases h <;> exact List.cons_ne_nil _ _

theorem CodePoint.Shown.oneLine {c : CodePoint} {u : Text} (h : c.Shown u) : u.OneLine := by
  cases h with
  | plain _ hc => simpa using hc.symm
  | letter _ _ hd => simpa using ⟨by decide, hd.symm⟩
  | @number d width hd hn =>
    have hparts := Text.isIdentifierPart_of_hexDigitsValue? (Text.hexDigitsValue?_hex width hn)
    rw [Text.oneLine_cons, Text.oneLine_cons]
    refine ⟨by decide, ?_, .of_isIdentifierPart hparts⟩
    rintro rfl
    cases hd

/-- The quotes that enclose shown texts. -/
def IsQuoteMark (mark : Char) : Prop :=
  mark = '\x27' ∨ mark = '\x22'

theorem CodePoint.shown_shown {mark : Char} (hm : IsQuoteMark mark) (c : CodePoint) :
    c.Shown (c.shown mark) := by
  unfold shown
  split
  · next h =>
    rcases h with rfl | rfl
    · rcases hm with rfl | rfl <;> exact .letter rfl rfl (by decide)
    · exact .letter rfl rfl (by decide)
  · next h =>
    rw [not_or] at h
    split
    · next hc =>
      subst hc
      exact .letter rfl rfl (by decide)
    · next hc =>
      split
      · next hr =>
        subst hr
        exact .letter rfl rfl (by decide)
      split
      · next ht =>
        subst ht
        exact .letter rfl rfl (by decide)
      split
      · exact .plain h.2 hc
      split
      · next hn => exact .number rfl hn
      split
      · next hn => exact .number rfl hn
      · exact .number rfl (Nat.lt_trans c.toNat_lt (by decide))

namespace Text

/-- The number of the code point that a shown text starts with, and what stands behind it. -/
def shownHead? : Text → Option (Nat × Text)
  | [] => none
  | [c] => some (c.toNat, [])
  | c :: d :: t =>
    if c = .scalar '\\' then
      match d.digitCount? with
      | none => some (d.ofEscape.toNat, t)
      | some count => (hexDigitsValue? (t.take count)).map fun n => (n, t.drop count)
    else some (c.toNat, d :: t)

theorem take_hex (width : Nat) {n : Nat} (h : n < 16 ^ (width + 1)) (t : Text) :
    (hex (width + 1) n ++ t).take (width + 1) = hex (width + 1) n ∧
      (hex (width + 1) n ++ t).drop (width + 1) = t := by
  have hl := length_hex width h
  exact ⟨List.take_left' hl, List.drop_left' hl⟩

/-- A code point is read from what it is shown as, whatever stands behind it. -/
theorem shownHead?_append {c : CodePoint} {u : Text} (h : c.Shown u) (t : Text) :
    shownHead? (u ++ t) = some (c.toNat, t) := by
  cases h with
  | plain hb _ =>
    rw [List.singleton_append]
    cases t with
    | nil => rfl
    | cons d t => rw [shownHead?, if_neg hb]
  | @letter d hd hc _ =>
    rw [List.cons_append, List.singleton_append, shownHead?, if_pos rfl, hd, ← hc]
  | @number d width hd hn =>
    obtain ⟨htake, hdrop⟩ := take_hex width hn t
    rw [List.cons_append, List.cons_append, shownHead?, if_pos rfl, hd]
    dsimp only
    rw [htake, hdrop, hexDigitsValue?_hex width hn, Option.map_some]

theorem shown_append_inj {c d : CodePoint} {u v s t : Text} (hc : c.Shown u) (hd : d.Shown v)
    (h : u ++ s = v ++ t) : c = d ∧ s = t := by
  have hread := congrArg shownHead? h
  rw [shownHead?_append hc, shownHead?_append hd] at hread
  obtain ⟨hn, ht⟩ := Prod.mk.inj (Option.some.inj hread)
  exact ⟨CodePoint.toNat_injective hn, ht⟩

theorem flatMap_shown_injective {mark : Char} (hm : IsQuoteMark mark) {s t : Text}
    (h : s.flatMap (·.shown mark) = t.flatMap (·.shown mark)) : s = t := by
  have hne (c : CodePoint) : c.shown mark ≠ [] := (c.shown_shown hm).ne_nil
  induction s generalizing t with
  | nil =>
    cases t with
    | nil => rfl
    | cons d t => exact absurd (List.append_eq_nil_iff.mp h.symm).1 (hne d)
  | cons c s ih =>
    cases t with
    | nil => exact absurd (List.append_eq_nil_iff.mp h).1 (hne c)
    | cons d t =>
      rw [List.flatMap_cons, List.flatMap_cons] at h
      obtain ⟨rfl, htail⟩ := shown_append_inj (c.shown_shown hm) (d.shown_shown hm) h
      rw [ih htail]

theorem isQuoteMark_quoteMark (t : Text) : IsQuoteMark t.quoteMark := by
  rw [quoteMark]
  split
  · exact .inr rfl
  · exact .inl rfl

/-- A text is determined by what it is shown as. -/
theorem quoted_injective {s t : Text} (h : s.quoted = t.quoted) : s = t := by
  obtain ⟨hmark, hbody⟩ := List.cons.inj h
  rw [CodePoint.scalar.inj hmark] at hbody
  exact flatMap_shown_injective t.isQuoteMark_quoteMark (List.append_cancel_right hbody)

/-- A shown text stands on one line. -/
theorem oneLine_quoted (t : Text) : t.quoted.OneLine := by
  have hm := t.isQuoteMark_quoteMark
  have hmark : lineFeed ≠ .scalar t.quoteMark := by
    rcases hm with h | h <;> rw [h] <;> decide
  rw [quoted, List.cons_append, oneLine_cons, oneLine_append]
  exact ⟨hmark, .flatMap (fun c => (c.shown_shown hm).oneLine) t,
    oneLine_cons.mpr ⟨hmark, oneLine_nil⟩⟩

end Text
end JsonQuery
