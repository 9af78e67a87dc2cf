/-
Documents on one line.

Without indentation nothing in the text of a document is a line feed, as those in strings are
escaped.  And the text tells the document, however deep it is: documents that are written alike are
equal.

* `Json.oneLine_write` — the text of a document is one line;
* `Json.same_of_write_eq` — documents with the same text are equal.
-/
import JsonQuery.Proofs.Data.Equality
import JsonQuery.Proofs.Json.RoundTrip
import JsonQuery.Proofs.Text.Lines

namespace JsonQuery

open Text

/-! ### Single lines -/

theorem CodePoint.Spelling.oneLine {c : CodePoint} {u : Text} (h : c.Spelling u) : u.OneLine := by
  cases h with
  | @letter l hl =>
    have hne : lineFeed ≠ l := by
      rintro rfl
      cases hl
    simpa using ⟨by decide, hne⟩
  | number _ _ _ hd =>
    rw [oneLine_cons, oneLine_cons]
    exact ⟨by decide, by decide, .of_isIdentifierPart hd⟩
  | plain _ _ hc =>
    rw [oneLine_cons]
    refine ⟨?_, oneLine_nil⟩
    rintro rfl
    exact hc (by decide)

theorem Text.oneLine_toJsonString (t : Text) : t.toJsonString.OneLine := by
  rw [toJsonString, List.cons_append, oneLine_cons, oneLine_append]
  exact ⟨by decide, .flatMap (fun c => c.spelling_escaped.oneLine) t, by decide⟩

theorem NumeralText.oneLine {t : Text} (h : NumeralText t) : t.OneLine :=
  fun hmem => absurd (h _ hmem) (by decide)

namespace Json

theorem oneLine_comma (level : Nat) : (comma none level).OneLine := by
  rw [comma, lineBreak]
  decide

theorem oneLine_enclose {opening closing : Char} {content : Text} (level : Nat)
    (ho : lineFeed ≠ .scalar opening) (hc : lineFeed ≠ .scalar closing) (h : content.OneLine) :
    (enclose none level opening closing content).OneLine := by
  simpa [enclose, lineBreak] using ⟨ho, h, hc⟩

mutual

theorem oneLine_writeAt : ∀ (level : Nat) (v : Json), (writeAt none level v).OneLine
  | _, .null => by
    rw [writeAt]
    decide
  | _, .bool b => by cases b <;> rw [writeAt] <;> decide
  | _, .num x => (NumeralText.toText x).oneLine
  | _, .str t => t.oneLine_toJsonString
  | _, .arr [] => by
    rw [writeAt]
    decide
  | level, .arr (x :: xs) => by
    rw [writeAt]
    refine oneLine_enclose level (by decide) (by decide) (oneLine_append.mpr ⟨?_, ?_⟩)
    · exact oneLine_writeAt (level + 1) x
    · exact oneLine_writeItems (level + 1) xs
  | _, .obj [] => by
    rw [writeAt]
    decide
  | level, .obj ((k, x) :: es) => by
    have hx := oneLine_writeAt (level + 1) x
    have hes := oneLine_writeEntries (level + 1) es
    rw [writeAt]
    refine oneLine_enclose level (by decide) (by decide) ?_
    simp only [oneLine_append]
    exact ⟨⟨⟨k.oneLine_toJsonString, by decide⟩, hx⟩, hes⟩
  | _, .ref body _ => body.elim

theorem oneLine_writeItems : ∀ (level : Nat) (xs : List Json), (writeItems none level xs).OneLine
  | _, [] => oneLine_nil
  | level, x :: xs => by
    rw [writeItems]
    simp only [oneLine_append]
    exact ⟨⟨oneLine_comma level, oneLine_writeAt level x⟩, oneLine_writeItems level xs⟩

theorem oneLine_writeEntries :
    ∀ (level : Nat) (es : List (Text × Json)), (writeEntries none level es).OneLine
  | _, [] => oneLine_nil
  | level, (k, x) :: es => by
    rw [writeEntries]
    simp only [oneLine_append]
    exact ⟨⟨⟨⟨oneLine_comma level, k.oneLine_toJsonString⟩, by decide⟩, oneLine_writeAt level x⟩,
      oneLine_writeEntries level es⟩

end

/-- The text of a document without indentation is one line. -/
theorem oneLine_write (v : Json) : (v.write none).OneLine :=
  oneLine_writeAt 0 v

/-! ### Equality -/

/-- Documents with the same text are equal. -/
theorem same_of_write_eq {v w : Json} (hv : v.DistinctKeys) (hw : w.DistinctKeys)
    {indent : Option Nat} (h : v.write indent = w.write indent) : v.same w = true := by
  have hread {x : Json} (hx : x.DistinctKeys) (hn : x.height ≤ max v.height w.height) :
      Reader.value false (x.write indent).length (max v.height w.height) (x.write indent) =
        .ok (x.toDocument, []) := by
    have h := Reader.value_writeAt indent false (x.write indent).length hn hx (Nat.le_refl _) []
      nofun
    rwa [List.append_nil] at h
  have hdocument : v.toDocument = w.toDocument := by
    have hr := hread hv (Nat.le_max_left _ _)
    rw [h, hread hw (Nat.le_max_right _ _)] at hr
    exact (congrArg Prod.fst (Except.ok.inj hr)).symm
  have hunsigned : v.unsigned = w.unsigned := by
    have hj := congrArg Document.toJson hdocument
    rw [toJson_toDocument, toJson_toDocument] at hj
    exact Except.ok.inj hj
  -- Both documents are equal to the one that is read, whose zeros have no sign.
  have hequal := same_equivalence
  have hu := distinctKeys_unsigned w hw
  exact hequal.trans hv hu hw (hunsigned ▸ same_unsigned v hv)
    (hequal.symm hw hu (same_unsigned w hw))

end Json
end JsonQuery
