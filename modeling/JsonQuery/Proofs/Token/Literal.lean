/-
The bodies of literals.

A literal is a JSON text between marks, and the marks in that text stand behind backslashes.

* `Lexeme.literalBody` — a JSON text as it stands between the marks, which
  `Lexeme.literalText_literalBody` reads back;
* `Markable` — the JSON texts that end where the closing mark is.
-/
import JsonQuery.Proofs.Json.Quoted

namespace JsonQuery

namespace Lexeme

/-- A JSON text as the body of a literal: its marks stand behind backslashes. -/
def literalBody (t : Text) : Text :=
  t.flatMap fun c => if c = literalMark then [.scalar '\\', c] else [c]

theorem literalBody_append (s t : Text) : literalBody (s ++ t) = literalBody s ++ literalBody t :=
  List.flatMap_append

theorem literalBody_cons_mark (t : Text) :
    literalBody (literalMark :: t) = .scalar '\\' :: literalMark :: literalBody t :=
  rfl

theorem literalBody_cons_of_ne {c : CodePoint} (h : c ≠ literalMark) (t : Text) :
    literalBody (c :: t) = c :: literalBody t := by
  rw [literalBody, List.flatMap_cons, if_neg h]
  rfl

theorem literalBody_eq_self {t : Text} (h : ∀ c ∈ t, c ≠ literalMark) : literalBody t = t := by
  induction t with
  | nil => rfl
  | cons c t ih =>
    obtain ⟨hc, ht⟩ := List.forall_mem_cons.mp h
    rw [literalBody_cons_of_ne hc, ih ht]

/-- Every JSON text is read back from the body of its literal. -/
theorem literalText_literalBody (t : Text) : literalText (literalBody t) = t := by
  induction t with
  | nil => rfl
  | cons c t ih =>
    by_cases h : c = literalMark
    · subst h
      rw [literalBody_cons_mark]
      exact congrArg (_ :: ·) ih
    · -- What stands behind a backslash of the text is never a mark.
      rw [literalBody_cons_of_ne h, literalText, ih]
      intro u hc hu
      cases t with
      | nil => cases hu
      | cons d t =>
        by_cases hd : d = literalMark
        · subst hd
          rw [literalBody_cons_mark] at hu
          cases hu
        · rw [literalBody_cons_of_ne hd] at hu
          exact hd (List.cons.inj hu).1

end Lexeme

open Lexeme

theorem Text.EscapeDigits.ne_mark {u : Text} (h : u.EscapeDigits) : ∀ c ∈ u, c ≠ literalMark := by
  rintro _ hc rfl
  cases h with
  | single hds => exact absurd (hds _ hc) (by decide)
  | pair hds hes =>
    rcases List.mem_append.mp hc with hc | hc
    · exact absurd (hds _ hc) (by decide)
    · simp only [List.mem_cons, literalMark, CodePoint.scalar.injEq] at hc
      rcases hc with hc | hc | hc
      · exact absurd hc (by decide)
      · exact absurd hc (by decide)
      · exact absurd (hes _ hc) (by decide)

/-- A JSON text that can stand between the marks of a literal. -/
def Markable (t : Text) : Prop :=
  Shielded literalMark (literalBody t)

namespace Markable

theorem append {s t : Text} (hs : Markable s) (ht : Markable t) : Markable (s ++ t) := by
  rw [Markable, literalBody_append]
  exact Shielded.append hs ht

theorem of_forall_ne {t : Text} (h : ∀ c ∈ t, c ≠ .scalar '\\') : Markable t := by
  induction t with
  | nil => exact .nil
  | cons c t ih =>
    obtain ⟨hc, ht⟩ := List.forall_mem_cons.mp h
    rw [Markable]
    by_cases hm : c = literalMark
    · subst hm
      rw [literalBody_cons_mark]
      exact .pair (ih ht)
    · rw [literalBody_cons_of_ne hm]
      exact .plain hc hm (ih ht)

/-- A string that is spelled as a JSON text does it has no mark behind a backslash. -/
theorem of_spelling {t s : Text} (h : t.Spelling s) : Markable s := by
  induction h with
  | nil => exact .nil
  | plain _ hb _ _ ih => exact append (of_forall_ne (List.forall_mem_singleton.mpr hb)) ih
  | @letter c l t s hl _ ih =>
    have hm : l ≠ literalMark := by
      rintro rfl
      cases hl
    rw [Markable, literalBody_cons_of_ne (by decide), literalBody_cons_of_ne hm]
    exact .pair ih
  | @number c u t s hu _ ih =>
    have hdigits := escapeDigits_of_append hu
    have hbody : Markable u := by
      rw [Markable, literalBody_eq_self hdigits.ne_mark]
      exact hdigits.shielded (by decide)
    rw [Markable, literalBody_cons_of_ne (by decide), literalBody_cons_of_ne (by decide)]
    exact .pair (hbody.append ih)

end Markable

end JsonQuery
