/-
Strings from values.

The function that makes a value a string gives strings back as they are and writes everything else
as JSON, except that numbers are written without going through the writer of documents.  Both
writings of a number agree, and the function that makes a string a number undoes them.  What cannot
be written is a value with a reference in it, however deep it stands.

* `Number.decimalNumber?_toText` — the text of a number is a decimal with the value of the number;
* `Builtin.toString_of_render`, `Builtin.toString_of_render_error` — what is made of a value is told
  by its writing as JSON;
* `Builtin.invoke_toString` — what is made of every value, and that numbers come back.
-/
import JsonQuery.Proofs.Function.ToNumber
import JsonQuery.Proofs.Json.Render

namespace JsonQuery

open Run

/-! ### The text of a number -/

namespace Number

/-- A number is written as the numeral that the embedding program is given for it is shown. -/
theorem display_toNumeral (x : Number) : x.toNumeral.display = x.toText := by
  rw [toNumeral, toText]
  split
  · rfl
  · rfl

/-- The text of a number is a decimal, whose number is the same but for the sign of zero. -/
theorem decimalNumber?_toText (x : Number) :
    ∃ y : Number, (Builtin.decimal? x.toText).bind Builtin.decimalNumber? = some y ∧
      y.same x = true := by
  have hread : Reader.numeral x.toText = .ok (x.toNumeral, []) := by
    have h := x.numeral_toText (t := []) nofun
    rwa [List.append_nil] at h
  have hwhole : Builtin.wholeNumber? (Reader.numeral x.toText) = some x.unsigned := by
    rw [hread, Builtin.wholeNumber?, x.toNumber_toNumeral]
    rfl
  have hrel := (Builtin.matching x.toText).number?_rel
  rw [hwhole] at hrel
  generalize (Builtin.decimal? x.toText).bind Builtin.decimalNumber? = o at hrel
  cases hrel with
  | @some y _ hy =>
    refine ⟨y, rfl, ?_⟩
    have hx := x.same_unsigned
    rw [same, beq_iff_eq] at hx hy ⊢
    rw [hy, hx]

end Number

namespace Builtin

/-! ### The function -/

section
variable {c : Call} {v : Value}

/-- A value other than a string is written as its JSON text, also if it is a number. -/
theorem toString_of_render {t : Text} (hk : v.kind ≠ .string) (h : v.render none = .ok t) :
    toString c [v] = Pure.pure (.str t) := by
  cases v with
  | str => exact absurd rfl hk
  | num x =>
    obtain rfl : x.toText = t := Except.ok.inj h
    rfl
  | null | bool | arr | obj | ref =>
    rw [toString, unary]
    simp only [h]

/-- A value that has no JSON text is the wrong argument, whatever it holds. -/
theorem toString_of_render_error {e : RenderError} (he : e ≠ .tooDeep)
    (h : v.render none = .error e) : toString c [v] = Run.fail (.problem
      (.invalidType "to_string" 0 "JSON value" (Text.ofString v.kind.name)) c.offset) := by
  cases v with
  | str | num => cases h
  | null | bool | arr | obj | ref =>
    rw [toString, unary]
    simp only [h]

theorem exists_render (hr : v.hasRef = false) (hn : v.height ≤ nestingLimit) :
    ∃ t, v.render none = .ok t := by
  obtain ⟨j, rfl⟩ := Data.exists_ofJson hr
  rw [Data.ofJson, Data.height_mapRef] at hn
  exact ⟨_, Data.render_ofJson none hn⟩

theorem exists_render_error (hr : v.hasRef = true) (hn : v.height ≤ nestingLimit) :
    ∃ e, e ≠ .tooDeep ∧ v.render none = .error e := by
  have hjson : v.toJson? = none := Option.isNone_iff_eq_none.mp hr
  rw [Data.render, if_neg (Nat.not_lt.mpr hn), hjson]
  split
  · exact ⟨.reference, by decide, rfl⟩
  · exact ⟨.holdsReference, by decide, rfl⟩

end

/-- A value as a string: a string is given back as it is, and any other value as its JSON text,
unless a reference stands in it at some depth, which makes it the wrong argument.  A number, whose
text is that of the number that the embedding program is given, comes back from it. -/
theorem invoke_toString {env : Env}
    (hs : env.registry.get? "to_string" = Registry.standard.get? "to_string")
    (hn : env.registry.get? "to_number" = Registry.standard.get? "to_number")
    (steps depth : Nat) (offset : Int) (v : Value) :
    let written := (invoke env (steps + 1) depth offset "to_string" [v]).outcome
    (∀ t, v = .str t → written = .ok (.str t)) ∧
      (v.kind ≠ .string → v.height ≤ nestingLimit →
        (v.hasRef = false → ∃ t, v.render none = .ok t ∧ written = .ok (.str t)) ∧
        (v.hasRef = true → written = .error (.problem
          (.invalidType "to_string" 0 "JSON value" (Text.ofString v.kind.name)) offset))) ∧
      ∀ x, v = .num x → ∃ n t y, v.toHost = .num n ∧ t = n.display ∧ written = .ok (.str t) ∧
        (invoke env (steps + 1) depth offset "to_number" [.str t]).outcome = .ok (.num y) ∧
        Value.same (.num y) v = true := by
  intro written
  obtain ⟨c, ho, hc⟩ : ∃ c : Call, c.offset = offset ∧ written = (toString c [v]).outcome := by
    have hget : env.registry.get? "to_string" =
        some ⟨fixed [.one .any] (.one .string), toString⟩ := hs.trans rfl
    exact ⟨_, rfl, congrArg outcome (invoke_eq_body hget rfl steps depth offset)⟩
  rw [hc]
  refine ⟨?_, ?_, ?_⟩
  · rintro t rfl
    rfl
  · intro hk hheight
    constructor
    · intro hr
      obtain ⟨t, ht⟩ := exists_render hr hheight
      exact ⟨t, ht, congrArg outcome (toString_of_render hk ht)⟩
    · intro hr
      obtain ⟨e, he, hrender⟩ := exists_render_error hr hheight
      rw [toString_of_render_error he hrender, ho]
      rfl
  · rintro x rfl
    obtain ⟨y, hy, hsame⟩ := x.decimalNumber?_toText
    refine ⟨x.toNumeral, x.toText, y, rfl, x.display_toNumeral.symm, rfl, ?_, hsame⟩
    rw [invoke_toNumber_outcome hn, hy]
    rfl

/-- A reference inside an object in an array, an array beside it, and a fraction with a power of
ten. -/
theorem invoke_toString_nested :
    let env : Env := ⟨[], .standard, 8, .alike⟩
    let outcome (name : Text) (v : Value) := (invoke env 1 0 3 name [v]).outcome
    let deep : Value := .arr [.obj [("a", .ref (.atom .current 9) .null)]]
    let plain : Value := .arr [.obj [("a", .bool true)]]
    env.registry.get? "to_string" = Registry.standard.get? "to_string" ∧
      env.registry.get? "to_number" = Registry.standard.get? "to_number" ∧
      outcome "to_string" deep =
        .error (.problem (.invalidType "to_string" 0 "JSON value" "array") 3) ∧
      outcome "to_string" plain = .ok (.str (Text.ofString "[\x7b\"a\":true\x7d]")) ∧
      ∀ x : Number, ∃ t y, outcome "to_string" (.num x) = .ok (.str t) ∧
        outcome "to_number" (.str t) = .ok (.num y) ∧ Value.same (.num y) (.num x) = true := by
  intro env outcome deep plain
  have hs : env.registry.get? "to_string" = Registry.standard.get? "to_string" := rfl
  have hn : env.registry.get? "to_number" = Registry.standard.get? "to_number" := rfl
  refine ⟨hs, hn, ?_, ?_, ?_⟩
  · exact ((invoke_toString hs hn 0 0 3 deep).2.1 nofun (by decide)).2 rfl
  · obtain ⟨t, ht, h⟩ := ((invoke_toString hs hn 0 0 3 plain).2.1 nofun (by decide)).1 rfl
    obtain rfl : Text.ofString "[\x7b\"a\":true\x7d]" = t :=
      Except.ok.inj (Eq.trans (Eq.symm (by decide +kernel)) ht)
    exact h
  · intro x
    obtain ⟨n, t, y, -, -, h⟩ := (invoke_toString hs hn 0 0 3 (.num x)).2.2 x rfl
    exact ⟨t, y, h⟩

end Builtin
end JsonQuery
