/-
Texts that are a single number.

A JSON text without blanks at its ends says a number exactly when the whole of it is a numeral, and
one that fits into a number.

* `Text.Unpadded` — no blank stands at either end of a text;
* `Json.read_eq_num_iff` — the texts without blanks at their ends that say a number;
* `Reader.unpadded_of_numeral` — a numeral has no blanks at its ends.
-/
import JsonQuery.Proofs.Json.Extent

namespace JsonQuery

open Grammar

/-- No blank of JSON stands at either end of a text. -/
def Text.Unpadded (t : Text) : Prop :=
  (∀ c ∈ t.head?, Reader.isSpace c = false) ∧ ∀ c ∈ t.getLast?, Reader.isSpace c = false

namespace Reader

theorem Piece.unpadded {t : Text} (h : Piece t) : t.Unpadded := by
  constructor
  · obtain ⟨c, u, rfl, hc⟩ := h.first
    rintro d hd
    cases hd
    exact hc.isSpace
  · obtain ⟨u, c, rfl, hc⟩ := h.last
    rintro d hd
    rw [List.getLast?_concat] at hd
    cases hd
    exact hc.isSpace

theorem skipSpaces_of_unpadded {t : Text} (h : t.Unpadded) : skipSpaces t = t := by
  cases t with
  | nil => rfl
  | cons c t =>
    rw [skipSpaces, List.dropWhile_cons_of_neg]
    rw [h.1 c rfl]
    exact Bool.false_ne_true

/-- Blanks at the end of a text without blanks there are none. -/
theorem eq_nil_of_unpadded {t u : Text} (h : (t ++ u).Unpadded) (hu : skipSpaces u = []) :
    u = [] := by
  obtain ⟨b, hb, hub⟩ := exists_skipSpaces u
  rw [hu, List.append_nil] at hub
  subst hub
  by_contra hne
  have hlast := h.2 (u.getLast hne) (by
    rw [List.getLast?_append_of_ne_nil _ hne, List.getLast?_eq_some_getLast hne]
    rfl)
  rw [hb _ (List.getLast_mem hne)] at hlast
  cases hlast

/-- A number is read from a numeral. -/
theorem numeral_of_value {bound nesting : Nat} {t rest : Text} {n : Numeral}
    (h : value false bound nesting t = .ok (.num n, rest)) : numeral t = .ok (n, rest) := by
  unfold value at h
  split at h
  · obtain ⟨_, -, h⟩ := map_eq_ok.mp h
    cases h
  · cases h
  · cases h
  · rw [array] at h
    split at h
    · cases h
    · obtain ⟨_, -, h⟩ := bind_eq_ok.mp h
      cases h
  · rw [object] at h
    split at h
    · cases h
    · obtain ⟨_, -, h⟩ := bind_eq_ok.mp h
      cases h
  · unfold scalar at h
    split at h
    · next hn =>
      have hmem := mem_of_takeName hn
      cases h
      simp [names] at hmem
    · split at h
      · cases h
      · obtain ⟨⟨n', rest'⟩, hn, h⟩ := bind_eq_ok.mp h
        cases h
        exact hn

theorem unpadded_of_numeral {t : Text} {n : Numeral} (h : numeral t = .ok (n, [])) :
    t.Unpadded := by
  obtain ⟨u, hu, ht, -⟩ := numeral_local h
  rw [List.append_nil] at ht
  rw [ht]
  exact hu.unpadded

/-- A text without blanks at its ends is a numeral as a whole document when it is one as a whole. -/
theorem document_eq_num_iff {t : Text} (ht : t.Unpadded) {n : Numeral} :
    document false t = .ok (.num n) ↔ numeral t = .ok (n, []) := by
  constructor
  · intro h
    unfold document at h
    split at h
    · cases h
    · obtain ⟨⟨d, rest⟩, hv, h⟩ := bind_eq_ok.mp h
      dsimp only at h
      split at h
      · next hrest =>
        cases h
        rw [skipSpaces_of_unpadded ht] at hv
        obtain ⟨u, -, rfl, -⟩ := value_local false nestingLimit hv
        obtain rfl := eq_nil_of_unpadded ht hrest
        exact numeral_of_value hv
      · cases h
  · intro h
    obtain ⟨u, hu, hut, -⟩ := numeral_local h
    rw [List.append_nil] at hut
    subst hut
    exact hu.document_eq (value_of_numeral h)

end Reader

/-- A text without blanks at its ends says a number exactly when the whole of it is a numeral that
is one. -/
theorem Json.read_eq_num_iff {t : Text} (ht : t.Unpadded) {x : Number} :
    Json.read t = .ok (.num x) ↔ ∃ n, Reader.numeral t = .ok (n, []) ∧ n.toNumber = .ok x := by
  rw [Json.read, bind_eq_ok]
  simp only [Document.read, mapError_eq_ok]
  constructor
  · rintro ⟨d, hd, hx⟩
    cases d with
    | num n =>
      obtain ⟨x', hn, hx⟩ := map_eq_ok.mp hx
      cases hx
      exact ⟨n, (Reader.document_eq_num_iff ht).mp hd, hn⟩
    | null | bool | str => cases hx
    | arr | obj =>
      obtain ⟨_, -, hx⟩ := map_eq_ok.mp hx
      cases hx
  · rintro ⟨n, hn, hx⟩
    refine ⟨.num n, (Reader.document_eq_num_iff ht).mpr hn, ?_⟩
    rw [Document.toJson, hx]
    rfl

end JsonQuery
