/-
The lines of a text, and the places in them.

A text is cut into lines at its line feeds.  Where it is cut in two at an offset, the last line of
the first part goes on with the first line of the second; so the line of an offset is told by the
line feeds before it, and its column by what stands behind the last of them.

* `Text.splitOn_eq_splitOn` — pieces of a text are those of a list, so joining them gives it back;
* `Text.splitOn_append` — the pieces of two texts one behind the other;
* `Text.exists_splitOn_concat` — the last piece of a text and those before it;
* `Text.OneLine` — texts without line feeds;
* `Text.exists_line` — the line of an offset;
* `Text.lineAndColumn_locates` — lines and columns locate offsets, in their order.
-/
import Mathlib.Algebra.Ring.Nat
import Mathlib.Data.List.Induction
import JsonQuery.Text.Position

namespace JsonQuery
namespace Text
variable {c : CodePoint}

/-! ### Pieces -/

theorem splitOn_eq_splitOn (c : CodePoint) (t : Text) : t.splitOn c = List.splitOn c t := by
  induction t with
  | nil => rfl
  | cons d t ih =>
    rw [splitOn, List.splitOn_cons_eq_if_modifyHead, ← ih]
    by_cases h : d = c
    · rw [if_pos h, if_pos (beq_iff_eq.mpr h)]
    · rw [if_neg h, if_neg (mt beq_iff_eq.mp h)]
      split
      · next hnil => exact absurd hnil (splitOn_ne_nil c t)
      · next hcons =>
        rw [hcons]
        rfl

theorem splitOn_cons_self (t : Text) : splitOn c (c :: t) = [] :: splitOn c t := by
  rw [splitOn, if_pos rfl]

theorem splitOn_cons_of_ne {d : CodePoint} (hd : d ≠ c) {t p : Text} {ps : List Text}
    (h : splitOn c t = p :: ps) : splitOn c (d :: t) = (d :: p) :: ps := by
  rw [splitOn, if_neg hd, h]

/-- The last piece of a text goes on with the first piece of what stands behind it. -/
theorem splitOn_append {u v last first : Text} {above below : List Text}
    (hu : splitOn c u = above ++ [last]) (hv : splitOn c v = first :: below) :
    splitOn c (u ++ v) = above ++ (last ++ first) :: below := by
  induction u generalizing above last with
  | nil =>
    cases above with
    | nil =>
      cases hu
      exact hv
    | cons => simp [splitOn] at hu
  | cons d u ih =>
    rw [List.cons_append]
    by_cases hd : d = c
    · subst hd
      rw [splitOn_cons_self] at hu ⊢
      cases above with
      | nil => exact absurd (List.cons.inj hu).2 (splitOn_ne_nil d u)
      | cons a above =>
        obtain ⟨rfl, htail⟩ := List.cons.inj hu
        rw [ih htail]
        rfl
    · obtain ⟨p, ps, hp⟩ := List.exists_cons_of_ne_nil (splitOn_ne_nil c u)
      rw [splitOn_cons_of_ne hd hp] at hu
      cases above with
      | nil =>
        obtain ⟨rfl, rfl⟩ := List.cons.inj hu
        have hrest : splitOn c (u ++ v) = [] ++ (p ++ first) :: below := ih hp
        exact splitOn_cons_of_ne hd hrest
      | cons a above =>
        obtain ⟨rfl, rfl⟩ := List.cons.inj hu
        have hrest : splitOn c (u ++ v) = (p :: above) ++ (last ++ first) :: below := ih hp
        exact splitOn_cons_of_ne hd hrest

theorem splitOn_singleton_self : splitOn c [c] = [[], []] :=
  splitOn_cons_self []

theorem splitOn_singleton_of_ne {d : CodePoint} (hd : d ≠ c) : splitOn c [d] = [[d]] :=
  splitOn_cons_of_ne hd rfl

/-- A text has as many pieces before the last one as separators, the last piece is what stands
behind the last separator, and together with the separators the pieces are as long as the text. -/
theorem exists_splitOn_concat (c : CodePoint) (t : Text) :
    ∃ above last, splitOn c t = above ++ [last] ∧ t.count c = above.length ∧
      t.reverse.takeWhile (· != c) = last.reverse ∧
      (above.map List.length).sum + above.length + last.length = t.length := by
  -- The column counts back from the end, so the induction takes the code points from there.
  induction t using List.reverseRecOn with
  | nil => exact ⟨[], [], rfl, rfl, rfl, rfl⟩
  | append_singleton t d ih =>
    obtain ⟨above, last, hsplit, hcount, hlast, hlength⟩ := ih
    rw [List.reverse_append, List.reverse_singleton, List.singleton_append, List.count_append,
      List.length_append, List.length_singleton]
    by_cases hd : d = c
    · subst hd
      refine ⟨above ++ [last], [], ?_, ?_, ?_, ?_⟩
      · rw [splitOn_append hsplit splitOn_singleton_self, List.append_nil, List.append_assoc]
        rfl
      · rw [hcount, List.count_singleton_self, List.length_append, List.length_singleton]
      · rw [List.takeWhile_cons_of_neg (by simp)]
        rfl
      · simp only [List.map_append, List.map_singleton, List.sum_append, List.sum_singleton,
          List.length_append, List.length_singleton, List.length_nil]
        omega
    · refine ⟨above, last ++ [d], ?_, ?_, ?_, ?_⟩
      · rw [splitOn_append hsplit (splitOn_singleton_of_ne hd)]
      · rw [hcount, List.count_singleton, if_neg (by simpa using hd), Nat.add_zero]
      · rw [List.takeWhile_cons_of_pos (by simpa using hd), hlast, List.reverse_append]
        rfl
      · rw [List.length_append, List.length_singleton]
        omega

/-- A text starts with the first code point of its first piece, or if that is empty with the
separator behind it, if there is one. -/
theorem head?_of_splitOn {t first : Text} {below : List Text} (h : splitOn c t = first :: below) :
    t.head? = first.head?.or (if below = [] then none else some c) := by
  cases t with
  | nil =>
    cases h
    rfl
  | cons d t =>
    by_cases hd : d = c
    · subst hd
      rw [splitOn_cons_self] at h
      obtain ⟨rfl, rfl⟩ := List.cons.inj h
      rw [if_neg (splitOn_ne_nil d t)]
      rfl
    · obtain ⟨p, ps, hp⟩ := List.exists_cons_of_ne_nil (splitOn_ne_nil c t)
      rw [splitOn_cons_of_ne hd hp] at h
      obtain ⟨rfl, rfl⟩ := List.cons.inj h
      rfl

/-- Pieces that do not hold the separator are cut apart again where they were joined. -/
theorem splitOn_intercalate {ts : List Text} (hne : ts ≠ []) (h : ∀ t ∈ ts, c ∉ t) :
    splitOn c (List.intercalate [c] ts) = ts := by
  rw [splitOn_eq_splitOn, List.splitOn_intercalate c h hne]

/-- Such pieces are told by what they are joined to. -/
theorem intercalate_injective {ts us : List Text} (ht : ts ≠ []) (hu : us ≠ [])
    (htc : ∀ t ∈ ts, c ∉ t) (huc : ∀ u ∈ us, c ∉ u)
    (h : List.intercalate [c] ts = List.intercalate [c] us) : ts = us := by
  rw [← splitOn_intercalate ht htc, h, splitOn_intercalate hu huc]

/-! ### Single lines -/

/-- A text without line feeds. -/
def OneLine (t : Text) : Prop :=
  lineFeed ∉ t

instance (t : Text) : Decidable t.OneLine :=
  inferInstanceAs (Decidable (lineFeed ∉ t))

@[simp] theorem oneLine_nil : OneLine [] :=
  List.not_mem_nil

@[simp] theorem oneLine_cons {d : CodePoint} {t : Text} :
    OneLine (d :: t) ↔ lineFeed ≠ d ∧ t.OneLine := by
  rw [OneLine, List.mem_cons, not_or]
  rfl

@[simp] theorem oneLine_append {s t : Text} : OneLine (s ++ t) ↔ s.OneLine ∧ t.OneLine := by
  rw [OneLine, List.mem_append, not_or]
  rfl

theorem OneLine.flatMap {f : CodePoint → Text} (h : ∀ d, (f d).OneLine) (t : Text) :
    OneLine (t.flatMap f) := by
  intro hmem
  obtain ⟨d, -, hd⟩ := List.mem_flatMap.mp hmem
  exact h d hd

theorem OneLine.of_isIdentifierPart {t : Text} (h : ∀ d ∈ t, d.isIdentifierPart = true) :
    t.OneLine :=
  fun hmem => absurd (h _ hmem) (by decide)

/-! ### The line of an offset -/

theorem clampOffset_eq (t : Text) (offset : Int) :
    (t.clampOffset offset : Int) = max 0 (min offset t.length) := by
  rw [clampOffset]
  omega

/-- The line of an offset, with the lines before it and those behind it. -/
theorem exists_line (t : Text) (offset : Int) :
    ∃ above row below, t.splitOn lineFeed = above ++ row :: below ∧
      (t.lineAndColumn offset).1 = above.length ∧
      (t.lineAndColumn offset).2 ≤ row.length ∧
      (above.map List.length).sum + above.length + (t.lineAndColumn offset).2 =
        t.clampOffset offset ∧
      t[t.clampOffset offset]? = row[(t.lineAndColumn offset).2]?.or
        (if below = [] then none else some lineFeed) := by
  have hle : t.clampOffset offset ≤ t.length := Nat.min_le_right _ _
  obtain ⟨above, last, hbefore, hcount, hlast, hlength⟩ :=
    exists_splitOn_concat lineFeed (t.take (t.clampOffset offset))
  obtain ⟨first, below, hafter⟩ :=
    List.exists_cons_of_ne_nil (splitOn_ne_nil lineFeed (t.drop (t.clampOffset offset)))
  have hcolumn : (t.lineAndColumn offset).2 = last.length := by
    rw [← List.length_reverse, ← hlast]
    rfl
  refine ⟨above, last ++ first, below, ?_, hcount, ?_, ?_, ?_⟩
  · rw [← splitOn_append hbefore hafter, List.take_append_drop]
  · rw [hcolumn, List.length_append]
    exact Nat.le_add_right _ _
  · rw [hcolumn, hlength, List.length_take, Nat.min_eq_left hle]
  · rw [hcolumn, List.getElem?_append_right (Nat.le_refl _), Nat.sub_self, ← List.head?_eq_getElem?,
      ← head?_of_splitOn hafter, List.head?_drop]

/-- Lines and columns locate offsets.  An offset that is moved into a text stands on one of the
lines of the text, at a column that is no greater than the length of that line, as far into the
text as the lines before it, their line feeds and the column are long.  The code point there is the
one at the column, or the line feed behind the line; and the caret is drawn below it, under that
line.  A later offset has a later line or, on the same line, a greater column. -/
theorem lineAndColumn_locates (t : Text) :
    (∀ offset : Int, ∃ (o l c : Nat) (row : Text), (o : Int) = max 0 (min offset t.length) ∧
      t.lineAndColumn offset = (l, c) ∧ (t.splitOn lineFeed)[l]? = some row ∧
      c ≤ row.length ∧ (((t.splitOn lineFeed).take l).map List.length).sum + l + c = o ∧
      t[o]? = row[c]?.or (if l + 1 < (t.splitOn lineFeed).length then some lineFeed else none) ∧
      t.caret offset =
        row ++ lineFeed :: List.replicate c (.scalar ' ') ++ [.scalar '^']) ∧
    ∀ o₁ o₂ : Int, 0 ≤ o₁ → o₁ < o₂ → o₂ ≤ t.length →
      Prod.Lex (· < ·) (· < ·) (t.lineAndColumn o₁) (t.lineAndColumn o₂) := by
  constructor
  · intro offset
    obtain ⟨above, row, below, hsplit, hl, hc, hsum, hchar⟩ := t.exists_line offset
    refine ⟨t.clampOffset offset, (t.lineAndColumn offset).1, (t.lineAndColumn offset).2, row,
      t.clampOffset_eq offset, rfl, ?_, hc, ?_, ?_, ?_⟩
    · rw [hsplit, hl, List.getElem?_append_right (Nat.le_refl _), Nat.sub_self]
      rfl
    · rw [hsplit, hl, List.take_left, hsum]
    · have hlast : above.length + 1 < (t.splitOn lineFeed).length ↔ below ≠ [] := by
        rw [hsplit, List.length_append, List.length_cons, ← List.length_pos_iff]
        omega
      rw [hchar, hl, if_congr hlast rfl rfl, ite_not]
    · rw [caret, hsplit]
      dsimp only
      rw [hl, List.getD_eq_getElem?_getD, List.getElem?_append_right (Nat.le_refl _), Nat.sub_self]
      rfl
  · intro o₁ o₂ h₀ hlt hle
    have hclamp : t.clampOffset o₁ < t.clampOffset o₂ := by
      have h₁ := t.clampOffset_eq o₁
      have h₂ := t.clampOffset_eq o₂
      omega
    obtain ⟨above₁, row₁, below₁, hsplit₁, hl₁, -, hsum₁, -⟩ := t.exists_line o₁
    obtain ⟨above₂, row₂, below₂, hsplit₂, hl₂, -, hsum₂, -⟩ := t.exists_line o₂
    have hline : (t.lineAndColumn o₁).1 ≤ (t.lineAndColumn o₂).1 :=
      (List.take_sublist_take_left (Nat.le_of_lt hclamp)).count_le lineFeed
    rcases Nat.lt_or_eq_of_le hline with hline | hline
    · exact .left _ _ hline
    · -- On one line the lines above are the same, so the columns differ as the offsets do.
      have habove : above₁ = above₂ :=
        (List.append_inj (hsplit₁.symm.trans hsplit₂) (hl₁.symm.trans (hline.trans hl₂))).1
      subst habove
      exact Prod.lex_def.mpr (.inr ⟨hline, by omega⟩)

/-- A line feed, the empty line behind it, and an offset behind the end. -/
theorem lineAndColumn_locates_empty_line :
    let t : Text := "a\n\nb"
    Prod.Lex (· < ·) (· < ·) (t.lineAndColumn 1) (t.lineAndColumn 2) ∧
      t.lineAndColumn 1 = (0, 1) ∧ t.lineAndColumn 2 = (1, 0) ∧
      t.caret 2 = Text.ofString "\n^" ∧ t.lineAndColumn 9 = (2, 1) ∧
      ∃ row : Text, (t.splitOn lineFeed)[2]? = some row ∧ 1 ≤ row.length := by
  intro t
  refine ⟨(lineAndColumn_locates t).2 1 2 (by decide) (by decide) (by decide), rfl, rfl, rfl, rfl,
    ?_⟩
  obtain ⟨o, l, c, row, -, hplace, hline, hc, -⟩ := (lineAndColumn_locates t).1 9
  cases hplace
  exact ⟨row, hline, hc⟩

end Text
end JsonQuery
