/-
How much of a text is read.

A step of the reader takes a piece from the start of a text and gives what it reads there.  It would
read the same piece before any other text that no numeral goes on into, and with any bound on the
length of arrays and objects that the piece fits in.

* `Reader.stringBody_eq_ok` — a string is read up to its closing quote;
* `Reader.Piece` — what is taken can stand in a literal, and no blank stands at its ends;
* `Reader.Local`, `Reader.value_local` — a value is read from a piece of the text;
* `Json.read_strip` — a JSON text can stand in a literal, and says the same without the blanks
  around it.
-/
import JsonQuery.Proofs.Json.Distinct
import JsonQuery.Proofs.Json.RoundTrip
import JsonQuery.Proofs.Token.Literal

namespace JsonQuery

open Grammar

namespace Reader

/-! ### Strings -/

theorem hexEscape?_used {t : Text} {c : CodePoint} {used : Nat}
    (h : hexEscape? t = some (c, used)) : used ≤ t.length := by
  have hlow {u : Text} {low : Nat} (h : lowHalf? u = some low) : 6 ≤ u.length := by
    unfold lowHalf? at h
    split at h
    · split at h
      · cases h
      · obtain ⟨hm, -⟩ := Option.filter_eq_some_iff.mp h
        obtain ⟨ds, r, rfl, hl, -⟩ := hex4?_eq_some hm
        simp only [List.length_cons, List.length_append, hl]
        omega
    · cases h
  unfold hexEscape? at h
  split at h
  · cases h
  · obtain ⟨n, hn, hc⟩ := Option.map_eq_some_iff.mp h
    obtain ⟨ds, r, rfl, hl, -⟩ := hex4?_eq_some hn
    have hd : (ds ++ r).drop 4 = r := by rw [← hl, List.drop_left]
    rw [hd] at hc
    rw [List.length_append, hl]
    split at hc
    · split at hc
      · next hsome =>
        obtain ⟨-, rfl⟩ := Prod.mk.inj hc
        have := hlow hsome
        omega
      · obtain ⟨-, rfl⟩ := Prod.mk.inj hc
        exact Nat.le_add_right 4 _
    · obtain ⟨-, rfl⟩ := Prod.mk.inj hc
      exact Nat.le_add_right 4 _

/-- Whatever is read as a string of a document spells it up to the closing quote. -/
theorem spelling_of_stringBody {opening t text rest : Text}
    (h : stringBody opening 0 t = .ok (text, rest)) :
    ∃ s, text.Spelling s ∧ t = s ++ .scalar '\x22' :: rest := by
  -- Escapes take more than one code point, so the induction is on the length of the text.
  induction hn : t.length using Nat.strongRecOn generalizing t text with
  | ind n ih =>
  cases t with
  | nil => cases h
  | cons c t =>
    rw [List.length_cons] at hn
    rw [stringBody.eq_def] at h
    dsimp only at h
    split at h
    · next hc =>
      cases h
      subst hc
      exact ⟨[], .nil, rfl⟩
    next hq =>
    split at h
    · next hc =>
      subst hc
      split at h
      · cases h
      · next digits =>
        split at h
        · next x used hx =>
          obtain ⟨⟨text, rest⟩, hs, hp⟩ := map_eq_ok.mp h
          cases hp
          obtain ⟨u, r, rfl, rfl⟩ : ∃ u r, digits = u ++ r ∧ u.length = used :=
            ⟨digits.take used, digits.drop used, (List.take_append_drop used digits).symm,
              List.length_take_of_le (hexEscape?_used hx)⟩
          rw [List.length_cons, List.length_append] at hn
          have hskip := stringBody_skip opening (.scalar 'u' :: u) r
          rw [List.length_cons, List.cons_append] at hskip
          rw [hskip] at hs
          obtain ⟨s, hspell, rfl⟩ := ih r.length (by omega) hs rfl
          rw [← List.append_assoc, hexEscape?_quote] at hx
          exact ⟨_, .number hx hspell, by simp only [List.cons_append, List.append_assoc]⟩
        · cases h
      · next letter t' _ =>
        split at h
        · next x hx =>
          obtain ⟨⟨text, rest⟩, hs, hp⟩ := map_eq_ok.mp h
          cases hp
          rw [List.length_cons] at hn
          have hskip := stringBody_skip opening [letter] t'
          rw [List.singleton_append, List.length_singleton] at hskip
          rw [hskip] at hs
          obtain ⟨s, hspell, rfl⟩ := ih t'.length (by omega) hs rfl
          exact ⟨_, .letter hx hspell, rfl⟩
        · cases h
    next hb =>
    split at h
    · cases h
    · next hlt =>
      obtain ⟨⟨text, rest⟩, hs, hp⟩ := map_eq_ok.mp h
      cases hp
      obtain ⟨s, hspell, rfl⟩ := ih t.length (by omega) hs rfl
      exact ⟨c :: s, .plain hq hb hlt hspell, rfl⟩

/-- A string of a document is read as the text that it spells up to its closing quote. -/
theorem stringBody_eq_ok {opening t text rest : Text} :
    stringBody opening 0 t = .ok (text, rest) ↔
      ∃ s, text.Spelling s ∧ t = s ++ .scalar '\x22' :: rest := by
  constructor
  · exact spelling_of_stringBody
  · rintro ⟨s, hs, rfl⟩
    exact stringBody_of_spelling opening hs rest

/-! ### Pieces of a text -/

/-- A part of a JSON text that can stand in a literal, with no blanks at its ends. -/
structure Piece (t : Text) : Prop where
  markable : Markable t
  first : ∃ c u, t = c :: u ∧ c.Visible
  last : ∃ u c, t = u ++ [c] ∧ c.Visible

/-- A code point that stands for itself in a literal and is no blank. -/
def Plain (c : CodePoint) : Prop :=
  c.Visible ∧ c ≠ .scalar '\\'

instance (c : CodePoint) : Decidable (Plain c) :=
  inferInstanceAs (Decidable (_ ∧ _))

namespace Piece
variable {s t : Text}

theorem of_plain (h : ∀ c ∈ t, Plain c) (hn : t ≠ []) : Piece t where
  markable := .of_forall_ne fun c hc => (h c hc).2
  first := by
    obtain ⟨c, u, rfl⟩ := List.exists_cons_of_ne_nil hn
    exact ⟨c, u, rfl, (h c List.mem_cons_self).1⟩
  last := by
    refine ⟨t.dropLast, t.getLast hn, (List.dropLast_concat_getLast hn).symm, ?_⟩
    exact (h _ (List.getLast_mem hn)).1

theorem single {c : CodePoint} (h : Plain c) : Piece [c] :=
  of_plain (List.forall_mem_singleton.mpr h) (List.cons_ne_nil c [])

theorem join {m : Text} (hs : Piece s) (hm : Markable m) (ht : Piece t) :
    Piece (s ++ (m ++ t)) where
  markable := hs.markable.append (hm.append ht.markable)
  first := by
    obtain ⟨c, u, rfl, hc⟩ := hs.first
    exact ⟨c, u ++ (m ++ t), rfl, hc⟩
  last := by
    obtain ⟨u, c, rfl, hc⟩ := ht.last
    exact ⟨s ++ (m ++ u), c, by simp only [List.append_assoc], hc⟩

theorem quoted {name s : Text} (h : name.Spelling s) :
    Piece (.scalar '\x22' :: (s ++ [.scalar '\x22'])) :=
  join (single (by decide)) (.of_spelling h) (single (by decide))

theorem length_pos (h : Piece t) : 0 < t.length := by
  obtain ⟨c, u, rfl, -⟩ := h.first
  exact Nat.succ_pos _

end Piece

/-! ### Blanks -/

theorem markable_blank {b : Text} (hb : ∀ c ∈ b, isSpace c = true) : Markable b := by
  refine .of_forall_ne ?_
  rintro c hc rfl
  exact absurd (hb _ hc) (by decide)

theorem exists_skipSpaces (t : Text) :
    ∃ b, (∀ c ∈ b, isSpace c = true) ∧ t = b ++ skipSpaces t :=
  ⟨t.takeWhile isSpace, List.all_eq_true.mp List.all_takeWhile,
    List.takeWhile_append_dropWhile.symm⟩

theorem skipSpaces_blank {b : Text} (hb : ∀ c ∈ b, isSpace c = true) {c : CodePoint}
    (hc : c.Visible) (u : Text) : skipSpaces (b ++ c :: u) = c :: u := by
  rw [skipSpaces, List.dropWhile_append_of_pos hb]
  exact skipSpaces_cons hc u

theorem Piece.skipSpaces_blank {b t : Text} (ht : Piece t) (hb : ∀ c ∈ b, isSpace c = true)
    (u : Text) : skipSpaces (b ++ (t ++ u)) = t ++ u := by
  obtain ⟨c, v, rfl, hc⟩ := ht.first
  exact Reader.skipSpaces_blank hb hc (v ++ u)

theorem endsNumeral_blank {b t : Text} (hb : ∀ c ∈ b, isSpace c = true) (ht : EndsNumeral t) :
    EndsNumeral (b ++ t) := by
  cases b with
  | nil => exact ht
  | cons c b =>
    have hc := hb c List.mem_cons_self
    simp only [isSpace, Bool.or_eq_true, beq_iff_eq] at hc
    refine endsNumeral_cons ?_
    rcases hc with ((rfl | rfl) | rfl) | rfl <;> decide

/-! ### Numerals -/

theorem plain_of_isDigit {c : CodePoint} (h : c.isDigit = true) : Plain c := by
  refine ⟨CodePoint.visible_of_inNumeral (by simp [CodePoint.inNumeral, h]), ?_⟩
  rintro rfl
  exact absurd h (by decide)

theorem takeDigits_eq {t ds rest : Text} (h : Text.takeDigits t = (ds, rest)) :
    t = ds ++ rest ∧ ∀ c ∈ ds, c.isDigit = true := by
  rw [Text.takeDigits, List.span_eq_takeWhile_dropWhile] at h
  obtain ⟨rfl, rfl⟩ := Prod.mk.inj h
  exact ⟨List.takeWhile_append_dropWhile.symm, List.all_eq_true.mp List.all_takeWhile⟩

theorem exists_ofChars {ds : Text} (h : ∀ c ∈ ds, c.isDigit = true) :
    ∃ cs, ds = Text.ofChars cs ∧ ∀ c ∈ cs, c.isDigit = true := by
  induction ds with
  | nil => exact ⟨[], rfl, nofun⟩
  | cons d ds ih =>
    obtain ⟨hd, hds⟩ := List.forall_mem_cons.mp h
    obtain ⟨cs, rfl, hcs⟩ := ih hds
    cases d with
    | scalar c =>
      rw [CodePoint.isDigit_scalar] at hd
      exact ⟨c :: cs, rfl, List.forall_mem_cons.mpr ⟨hd, hcs⟩⟩
    | surrogate n =>
      have hle : 0xD800 + n.val ≤ 57 := of_decide_eq_true (Bool.and_eq_true_iff.mp hd).2
      omega

theorem takeWhole_eq_some {t ds rest : Text} (h : takeWhole t = some (ds, rest)) :
    t = ds ++ rest ∧ ∃ cs, ds = Text.ofChars cs ∧ WholeDigits cs := by
  unfold takeWhole at h
  split at h
  · cases h
    exact ⟨rfl, _, rfl, .zero_alone⟩
  · next hz =>
    split at h
    · cases h
    · next ds' rest' hn hds =>
      cases h
      obtain ⟨rfl, hdigits⟩ := takeDigits_eq hds
      obtain ⟨cs, rfl, hcs⟩ := exists_ofChars hdigits
      refine ⟨rfl, cs, rfl, ?_⟩
      cases cs with
      | nil => exact absurd rfl hn
      | cons c cs =>
        refine .of_ne hcs ?_
        rintro rfl
        exact hz _ rfl

/-- A part of a numeral is the same before other texts. -/
theorem takeFraction_eq_some {t ds rest : Text} (h : takeFraction t = some (ds, rest)) :
    t = .scalar '.' :: (ds ++ rest) ∧ (∀ c ∈ ds, c.isDigit = true) ∧
      ∀ rest', Text.EndsDigits rest' →
        takeFraction (.scalar '.' :: (ds ++ rest')) = some (ds, rest') := by
  unfold takeFraction at h
  split at h
  · split at h
    · cases h
    · next ds' rest' hn hds =>
      cases h
      obtain ⟨rfl, hdigits⟩ := takeDigits_eq hds
      refine ⟨rfl, hdigits, fun rest' hr => ?_⟩
      obtain ⟨cs, rfl, hcs⟩ := exists_ofChars hdigits
      refine takeFraction_append hcs ?_ hr
      rintro rfl
      exact hn rfl
  · cases h

theorem takeSign_eq {t rest : Text} {negative : Bool} (h : Text.takeSign t = (negative, rest)) :
    ∃ s, t = s ++ rest ∧ (∀ c ∈ s, Plain c) ∧ ∀ d u, d.isDigit = true →
      Text.takeSign (s ++ d :: u) = (negative, d :: u) := by
  unfold Text.takeSign at h
  split at h
  · cases h
    exact ⟨[.scalar '-'], rfl, by decide, fun _ _ _ => rfl⟩
  · cases h
    exact ⟨[.scalar '+'], rfl, by decide, fun _ _ _ => rfl⟩
  · cases h
    refine ⟨[], rfl, nofun, fun d u hd => ?_⟩
    unfold Text.takeSign
    split
    · next heq =>
      cases heq
      cases hd
    · next heq =>
      cases heq
      cases hd
    · rfl

theorem takeExponent_eq_some {t rest : Text} {e : Int} (h : takeExponent t = some (e, rest)) :
    ∃ u, t = u ++ rest ∧ (∀ c ∈ u, Plain c) ∧
      (∃ v, u = .scalar 'e' :: v ∨ u = .scalar 'E' :: v) ∧
      ∀ rest', Text.EndsDigits rest' → takeExponent (u ++ rest') = some (e, rest') := by
  cases t with
  | nil => cases h
  | cons c t =>
    rw [takeExponent] at h
    split at h
    · next hc =>
      obtain ⟨negative, t', hsign⟩ : ∃ negative t', Text.takeSign t = (negative, t') := ⟨_, _, rfl⟩
      rw [hsign] at h
      dsimp only at h
      obtain ⟨s, rfl, hplain, hs⟩ := takeSign_eq hsign
      split at h
      · cases h
      · next ds rest' hn hds =>
        cases h
        obtain ⟨rfl, hdigits⟩ := takeDigits_eq hds
        have hplain : ∀ d ∈ c :: (s ++ ds), Plain d := by
          refine List.forall_mem_cons.mpr ⟨?_, List.forall_mem_append.mpr ⟨hplain, ?_⟩⟩
          · rcases hc with rfl | rfl <;> decide
          · exact fun d hd => plain_of_isDigit (hdigits d hd)
        refine ⟨c :: (s ++ ds), by simp only [List.cons_append, List.append_assoc], hplain,
          ⟨s ++ ds, by simpa using hc⟩, fun rest' hr => ?_⟩
        have hd := Text.takeDigits_append hdigits hr
        rw [List.cons_append, List.append_assoc, takeExponent, if_pos hc]
        cases ds with
        | nil => exact absurd rfl hn
        | cons d ds =>
          rw [List.cons_append] at hd ⊢
          rw [hs d _ (hdigits d List.mem_cons_self)]
          dsimp only
          rw [hd]
    · cases h

/-- An exponent, or none, is the same before other texts. -/
theorem exponentTail {mid rest : Text} {e : Int}
    (hx : (takeExponent mid).getD (0, mid) = (e, rest)) :
    ∃ v, (∀ c ∈ v, Plain c) ∧ mid = v ++ rest ∧ ∀ rest', EndsNumeral rest' →
      (takeExponent (v ++ rest')).getD (0, v ++ rest') = (e, rest') ∧
      (takeExponent (v ++ rest')).isNone = (takeExponent mid).isNone ∧
      Text.EndsDigits (v ++ rest') ∧ ∀ c ∈ (v ++ rest').head?, c ≠ .scalar '.' := by
  cases he : takeExponent mid with
  | none =>
    rw [he] at hx
    cases hx
    refine ⟨[], nofun, rfl, fun rest' hr => ?_⟩
    have hnone : takeExponent rest' = none := takeExponent_eq_none fun c hc => (hr c hc).2.2
    rw [List.nil_append, hnone]
    exact ⟨rfl, rfl, hr.digits, fun c hc => (hr c hc).2.1⟩
  | some p =>
    obtain ⟨e', rest'⟩ := p
    rw [he] at hx
    cases hx
    obtain ⟨v, rfl, hplain, ⟨w, hw⟩, hre⟩ := takeExponent_eq_some he
    refine ⟨v, hplain, rfl, fun rest' hr => ?_⟩
    rw [hre rest' hr.digits]
    refine ⟨rfl, rfl, ?_⟩
    rcases hw with rfl | rfl
    · exact ⟨endsDigits_cons (by decide) _, fun c hc => by cases hc; decide⟩
    · exact ⟨endsDigits_cons (by decide) _, fun c hc => by cases hc; decide⟩

/-- What stands behind the integer part of a numeral is the same before other texts. -/
theorem numeralTail {r fs mid rest : Text} {e : Int}
    (hf : (takeFraction r).getD ([], r) = (fs, mid))
    (hx : (takeExponent mid).getD (0, mid) = (e, rest)) :
    ∃ u, (∀ c ∈ u, Plain c) ∧ r = u ++ rest ∧ ∀ rest', EndsNumeral rest' →
      ∃ mid', Text.EndsDigits (u ++ rest') ∧
        (takeFraction (u ++ rest')).getD ([], u ++ rest') = (fs, mid') ∧
        (takeExponent mid').getD (0, mid') = (e, rest') ∧
        (takeFraction (u ++ rest')).isNone = (takeFraction r).isNone ∧
        (takeExponent mid').isNone = (takeExponent mid).isNone := by
  obtain ⟨v, hv, rfl, hvend⟩ := exponentTail hx
  cases hfs : takeFraction r with
  | none =>
    rw [hfs] at hf
    cases hf
    refine ⟨v, hv, rfl, fun rest' hr => ⟨v ++ rest', ?_⟩⟩
    obtain ⟨hx', hnone, hdigits, hpoint⟩ := hvend rest' hr
    rw [takeFraction_eq_none hpoint]
    exact ⟨hdigits, rfl, hx', rfl, hnone⟩
  | some p =>
    obtain ⟨fs', mid'⟩ := p
    rw [hfs] at hf
    cases hf
    obtain ⟨rfl, hdigits, hre⟩ := takeFraction_eq_some hfs
    refine ⟨.scalar '.' :: (fs ++ v), ?_, ?_, fun rest' hr => ⟨v ++ rest', ?_⟩⟩
    · refine List.forall_mem_cons.mpr ⟨by decide, List.forall_mem_append.mpr ⟨?_, hv⟩⟩
      exact fun c hc => plain_of_isDigit (hdigits c hc)
    · rw [List.cons_append, List.append_assoc]
    · obtain ⟨hx', hnone, hends, -⟩ := hvend rest' hr
      rw [List.cons_append, List.append_assoc, hre _ hends]
      exact ⟨endsDigits_cons (by decide) _, rfl, hx', rfl, hnone⟩

/-- A numeral is read from the start of a text, and the same before other texts. -/
theorem numeral_local {t rest : Text} {n : Numeral} (h : numeral t = .ok (n, rest)) :
    ∃ u, Piece u ∧ t = u ++ rest ∧
      ∀ rest', EndsNumeral rest' → numeral (u ++ rest') = .ok (n, rest') := by
  unfold numeral at h
  split at h
  next negative body hm =>
  have ht : t = minusSign negative ++ body := by
    split at hm
    · cases hm
      rfl
    · cases hm
      rfl
  split at h
  · cases h
  · next whole r hw =>
    obtain ⟨rfl, cs, rfl, hcs⟩ := takeWhole_eq_some hw
    obtain ⟨⟨fs, mid⟩, hf⟩ : ∃ p, (takeFraction r).getD ([], r) = p := ⟨_, rfl⟩
    obtain ⟨⟨e, rest₁⟩, hx⟩ : ∃ p, (takeExponent mid).getD (0, mid) = p := ⟨_, rfl⟩
    dsimp only at h
    rw [hf] at h
    dsimp only at h
    rw [hx] at h
    dsimp only at h
    -- An integer may have too many digits, but whatever the numeral, the same is left.
    have hrest : rest₁ = rest := by
      split at h
      · split at h
        · cases h
        · cases h
          rfl
      · cases h
        rfl
    subst hrest
    obtain ⟨u, hu, rfl, hend⟩ := numeralTail hf hx
    refine ⟨minusSign negative ++ (Text.ofChars cs ++ u), .of_plain ?_ ?_, ?_, fun rest' hr => ?_⟩
    · refine List.forall_mem_append.mpr ⟨?_, List.forall_mem_append.mpr ⟨?_, hu⟩⟩
      · cases negative <;> decide
      · exact fun c hc => plain_of_isDigit (Text.isDigit_ofChars hcs.digits c hc)
    · intro hnil
      have := (List.append_eq_nil_iff.mp (List.append_eq_nil_iff.mp hnil).2).1
      exact hcs.ne_nil (List.map_eq_nil_iff.mp this)
    · rw [ht, List.append_assoc, List.append_assoc]
    · obtain ⟨mid', hdigits, hf', hx', hfn, hxn⟩ := hend rest' hr
      rw [List.append_assoc, List.append_assoc, numeral_parts negative hcs hdigits hf' hx',
        hfn, hxn]
      split at h
      · next hnone =>
        rw [if_pos hnone]
        split at h
        · cases h
        · next hlimit =>
          cases h
          rw [if_neg hlimit]
      · next hsome =>
        cases h
        rw [if_neg hsome]

/-! ### Values that are no arrays, objects or strings -/

theorem takeName_eq_some {α : Type} {table : List (String × α)} {t rest : Text} {name : String}
    {x : α} (h : takeName table t = some (name, x, rest)) : t = Text.ofString name ++ rest := by
  obtain ⟨⟨name', x'⟩, -, h⟩ := List.exists_of_findSome?_eq_some h
  simp only [Option.ite_none_right_eq_some, Option.some.injEq, Prod.mk.injEq] at h
  obtain ⟨hp, rfl, rfl, rfl⟩ := h
  obtain ⟨r, rfl⟩ := List.isPrefixOf_iff_prefix.mp hp
  rw [Text.ofString, Text.ofChars, List.drop_left' (by rw [List.length_map, String.length_toList])]

theorem value_name {name : String} {d : Document} (h : (name, d) ∈ names) :
    Piece (Text.ofString name) ∧ ∀ allow bound nesting rest,
      value allow bound nesting (Text.ofString name ++ rest) = .ok (d, rest) := by
  simp only [names, List.mem_cons, List.not_mem_nil, or_false, Prod.mk.injEq] at h
  rcases h with ⟨rfl, rfl⟩ | ⟨rfl, rfl⟩ | ⟨rfl, rfl⟩ <;>
    exact ⟨.of_plain (by decide) (by decide), fun _ _ _ _ =>
      value_eq_scalar (by decide) (by decide) (by decide)⟩

theorem value_constant {name : String} {x : Float64} (h : (name, x) ∈ constants) :
    Piece (Text.ofString name) ∧ ∀ bound nesting rest,
      value true bound nesting (Text.ofString name ++ rest) = .ok (.num (.float x), rest) := by
  simp only [constants, List.mem_cons, List.not_mem_nil, or_false, Prod.mk.injEq] at h
  rcases h with ⟨rfl, rfl⟩ | ⟨rfl, rfl⟩ | ⟨rfl, rfl⟩ <;>
    exact ⟨.of_plain (by decide) (by decide), fun _ _ _ =>
      value_eq_scalar (by decide) (by decide) (by decide)⟩

theorem scalar_local {allow : Bool} {t rest : Text} {d : Document}
    (h : scalar allow t = .ok (d, rest)) :
    ∃ u, Piece u ∧ t = u ++ rest ∧ ∀ bound nesting rest', EndsNumeral rest' →
      value allow bound nesting (u ++ rest') = .ok (d, rest') := by
  unfold scalar at h
  split at h
  · next name x rest' hn =>
    cases h
    obtain ⟨hp, hv⟩ := value_name (mem_of_takeName hn)
    exact ⟨_, hp, takeName_eq_some hn, fun _ _ rest' _ => hv _ _ _ rest'⟩
  · split at h
    · next name x rest' hn =>
      split at h
      · next hallow =>
        subst hallow
        cases h
        obtain ⟨hp, hv⟩ := value_constant (mem_of_takeName hn)
        exact ⟨_, hp, takeName_eq_some hn, fun _ _ rest' _ => hv _ _ rest'⟩
      · cases h
    · obtain ⟨⟨n, rest'⟩, hn, h⟩ := bind_eq_ok.mp h
      cases h
      obtain ⟨u, hu, ht, hend⟩ := numeral_local hn
      exact ⟨u, hu, ht, fun _ _ rest' hr => value_of_numeral (hend rest' hr)⟩

/-! ### Arrays and objects -/

/-- A step, given for every bound on the length of arrays and objects, reads a piece of a text, and
the same before other texts and with every bound that is not less than the piece. -/
def Local {α : Type} (step : Nat → Step α) : Prop :=
  ∀ ⦃bound t x rest⦄, step bound t = .ok (x, rest) → ∃ u, Piece u ∧ t = u ++ rest ∧
    ∀ bound' rest', u.length ≤ bound' → EndsNumeral rest' →
      step bound' (u ++ rest') = .ok (x, rest')

/-- A loop reads parts with commas between them, up to a closing code point. -/
structure Lists {α : Type} (closing : CodePoint) (part : Step α) (loop : Nat → Step (List α)) :
    Prop where
  zero : ∀ t r, loop 0 t ≠ .ok r
  succ : ∀ fuel t xs rest, loop (fuel + 1) t = .ok (xs, rest) ↔
    ∃ x r, part t = .ok (x, r) ∧
      ((xs = [x] ∧ skipSpaces r = closing :: rest) ∨
        ∃ r' ys, skipSpaces r = .scalar ',' :: r' ∧
          loop fuel (skipSpaces r') = .ok (ys, rest) ∧ xs = x :: ys)

theorem items_lists (step : Step Document) : Lists (.scalar ']') step (items step) where
  zero _ _ h := by cases h
  succ fuel t xs rest := by
    rw [items, bind_eq_ok, Prod.exists]
    refine exists_congr fun x => exists_congr fun r => and_congr_right fun _ => ?_
    dsimp only
    split
    · next heq => simp [heq, eq_comm]
    · next heq => simp [heq, bind_eq_ok, @eq_comm _ xs]
    · next hclose hcomma =>
      constructor
      · intro h
        cases h
      · rintro (⟨-, h⟩ | ⟨_, _, h, -⟩)
        · exact absurd h (hclose _)
        · exact absurd h (hcomma _)

theorem entries_lists (step : Step Document) :
    Lists (.scalar '\x7d') (entry step) (entries step) where
  zero _ _ h := by cases h
  succ fuel t xs rest := by
    rw [entries, bind_eq_ok, Prod.exists]
    refine exists_congr fun x => exists_congr fun r => and_congr_right fun _ => ?_
    dsimp only
    split
    · next heq => simp [heq, eq_comm]
    · next heq => simp [heq, bind_eq_ok, @eq_comm _ xs]
    · next hclose hcomma =>
      constructor
      · intro h
        cases h
      · rintro (⟨-, h⟩ | ⟨_, _, h, -⟩)
        · exact absurd h (hclose _)
        · exact absurd h (hcomma _)

section
variable {α : Type} {closing : CodePoint} {part : Nat → Step α}
  {loop : Nat → Nat → Step (List α)}

/-- The code points that close arrays and objects. -/
def Closes (c : CodePoint) : Prop :=
  c = .scalar ']' ∨ c = .scalar '\x7d'

theorem Closes.plain {c : CodePoint} (h : Closes c) : Plain c := by
  rcases h with rfl | rfl <;> decide

theorem Closes.endsNumeral {c : CodePoint} (h : Closes c) (t : Text) : EndsNumeral (c :: t) := by
  refine endsNumeral_cons ?_
  rcases h with rfl | rfl <;> decide

/-- The parts of a list are read from a piece of the text, with as many turns as it is long. -/
theorem Lists.local (hl : ∀ bound, Lists closing (part bound) (loop bound)) (hp : Local part)
    (hc : Closes closing) {bound fuel : Nat} {t rest : Text} {xs : List α}
    (h : loop bound fuel t = .ok (xs, rest)) :
    ∃ u, Piece u ∧ t = u ++ rest ∧ ∀ bound' fuel' rest', u.length ≤ bound' → u.length ≤ fuel' →
      loop bound' fuel' (u ++ rest') = .ok (xs, rest') := by
  induction fuel generalizing t xs with
  | zero => exact absurd h ((hl bound).zero t _)
  | succ fuel ih =>
    obtain ⟨x, r, hx, hr⟩ := ((hl bound).succ _ _ _ _).mp h
    obtain ⟨u, hu, rfl, hre⟩ := hp hx
    have hpos := hu.length_pos
    obtain ⟨b, hb, hbr⟩ := exists_skipSpaces r
    obtain ⟨rfl, hclose⟩ | ⟨r', ys, hcomma, hys, rfl⟩ := hr
    · -- The last part, some blanks and the closing code point.
      rw [hclose] at hbr
      subst hbr
      refine ⟨u ++ (b ++ [closing]), hu.join (markable_blank hb) (.single hc.plain), ?_, ?_⟩
      · simp only [List.append_assoc, List.singleton_append]
      intro bound' fuel' rest' hbound hfuel
      simp only [List.length_append, List.length_singleton] at hbound hfuel
      obtain ⟨n, rfl⟩ : ∃ n, fuel' = n + 1 := ⟨fuel' - 1, by omega⟩
      simp only [List.append_assoc, List.singleton_append]
      have hend := endsNumeral_blank hb (hc.endsNumeral rest')
      refine ((hl bound').succ _ _ _ _).mpr ⟨x, _, hre bound' _ (by omega) hend, .inl ⟨rfl, ?_⟩⟩
      exact skipSpaces_blank hb hc.plain.1 rest'
    · -- A part, a comma between blanks and the piece of the other parts.
      rw [hcomma] at hbr
      subst hbr
      obtain ⟨b', hb', hbr'⟩ := exists_skipSpaces r'
      obtain ⟨v, hv, hvr, hvre⟩ := ih hys
      rw [hvr] at hbr'
      subst hbr'
      have hmark : Markable (b ++ .scalar ',' :: b') :=
        (markable_blank hb).append (.append (s := [.scalar ',']) (.of_forall_ne (by decide))
          (markable_blank hb'))
      refine ⟨u ++ ((b ++ .scalar ',' :: b') ++ v), hu.join hmark hv, ?_, ?_⟩
      · simp only [List.append_assoc, List.cons_append]
      intro bound' fuel' rest' hbound hfuel
      simp only [List.length_append, List.length_cons] at hbound hfuel
      obtain ⟨n, rfl⟩ : ∃ n, fuel' = n + 1 := ⟨fuel' - 1, by omega⟩
      simp only [List.append_assoc, List.cons_append]
      have hend := endsNumeral_blank (t := .scalar ',' :: (b' ++ (v ++ rest'))) hb
        (endsNumeral_cons (by decide))
      refine ((hl bound').succ _ _ _ _).mpr ⟨x, _, hre bound' _ (by omega) hend, .inr ?_⟩
      refine ⟨_, ys, skipSpaces_blank hb (by decide) _, ?_, rfl⟩
      rw [hv.skipSpaces_blank hb']
      exact hvre bound' n rest' (by omega) (by omega)

end

theorem entry_local {step : Nat → Step Document} (h : Local step) :
    Local fun bound => entry (step bound) := by
  intro bound t e rest he
  dsimp only at he
  unfold entry at he
  split at he
  · next t =>
    obtain ⟨⟨key, r⟩, hk, hr⟩ := bind_eq_ok.mp he
    clear he
    obtain ⟨s, hs, rfl⟩ := stringBody_eq_ok.mp hk
    obtain ⟨b, hb, hbr⟩ := exists_skipSpaces r
    dsimp only at hr
    split at hr
    · next r' hcolon =>
      obtain ⟨⟨x, rest'⟩, hx, hr⟩ := bind_eq_ok.mp hr
      cases hr
      obtain ⟨b', hb', hbr'⟩ := exists_skipSpaces r'
      obtain ⟨u, hu, hur, hre⟩ := h hx
      rw [hcolon] at hbr
      rw [hur] at hbr'
      subst hbr hbr'
      have hmark : Markable (b ++ .scalar ':' :: b') :=
        (markable_blank hb).append (.append (s := [.scalar ':']) (.of_forall_ne (by decide))
          (markable_blank hb'))
      refine ⟨_, (Piece.quoted hs).join hmark hu, ?_, ?_⟩
      · simp only [List.cons_append, List.append_assoc, List.nil_append]
      intro bound' rest' hbound hend
      simp only [List.length_append, List.length_cons] at hbound
      simp only [List.cons_append, List.append_assoc, List.nil_append]
      rw [entry, stringBody_of_spelling _ hs]
      simp only [bind, Except.bind]
      rw [skipSpaces_blank hb (by decide)]
      simp only
      rw [hu.skipSpaces_blank hb', hre bound' rest' (by omega) hend]
    · cases hr
  · cases he

/-- A step reads what stands behind an opening bracket: nothing or a list, and a closing one. -/
structure Encloses {α : Type} (closing : CodePoint) (empty : Document) (mk : List α → Document)
    (loop : Step (List α)) (step : Step Document) : Prop where
  nil : ∀ {t rest}, skipSpaces t = closing :: rest → step t = .ok (empty, rest)
  cons : ∀ {t}, (∀ rest, skipSpaces t ≠ closing :: rest) →
    step t = (loop (skipSpaces t)).map fun (xs, rest) => (mk xs, rest)

theorem array_encloses (bound : Nat) (step : Step Document) :
    Encloses (.scalar ']') (.arr []) .arr (items step bound) (array bound step) where
  nil h := by
    rw [array, h]
    rfl
  cons h := by
    unfold array
    split
    · next heq => exact absurd heq (h _)
    · rfl

theorem object_encloses (bound : Nat) (step : Step Document) :
    Encloses (.scalar '\x7d') (.obj []) (fun es => .obj (Entries.ofList es))
      (entries step bound) (object bound step) where
  nil h := by
    rw [object, h]
    rfl
  cons h := by
    unfold object
    split
    · next heq => exact absurd heq (h _)
    · rfl

/-- An array or object is read from a piece of the text that starts with its opening bracket. -/
theorem Encloses.local {α : Type} {opening closing : CodePoint} {empty : Document}
    {mk : List α → Document} {part : Nat → Step α} {loop : Nat → Nat → Step (List α)}
    {step : Nat → Step Document}
    (he : ∀ bound, Encloses closing empty mk (loop bound bound) (step bound))
    (hl : ∀ bound, Lists closing (part bound) (loop bound)) (hp : Local part)
    (ho : Plain opening) (hc : Closes closing) {bound : Nat} {t rest : Text} {d : Document}
    (h : step bound t = .ok (d, rest)) :
    ∃ u, Piece (opening :: u) ∧ t = u ++ rest ∧
      ∀ bound' rest', u.length ≤ bound' → step bound' (u ++ rest') = .ok (d, rest') := by
  obtain ⟨b, hb, hbt⟩ := exists_skipSpaces t
  -- The closing code point comes at once, or else there is a list before it.
  by_cases hempty : ∃ r, skipSpaces t = closing :: r
  · obtain ⟨r, hr⟩ := hempty
    rw [(he bound).nil hr] at h
    cases h
    rw [hr] at hbt
    subst hbt
    refine ⟨b ++ [closing], (Piece.single ho).join (markable_blank hb) (.single hc.plain), ?_, ?_⟩
    · rw [List.append_assoc, List.singleton_append]
    intro bound' rest' _
    rw [List.append_assoc, List.singleton_append]
    exact (he bound').nil (skipSpaces_blank hb hc.plain.1 rest')
  · rw [not_exists] at hempty
    rw [(he bound).cons hempty] at h
    obtain ⟨⟨xs, rest⟩, hxs, hd⟩ := map_eq_ok.mp h
    cases hd
    obtain ⟨u, hu, hur, hre⟩ := Lists.local hl hp hc hxs
    rw [hur] at hbt
    subst hbt
    refine ⟨b ++ u, (Piece.single ho).join (markable_blank hb) hu, (List.append_assoc ..).symm, ?_⟩
    intro bound' rest' hbound
    rw [List.length_append] at hbound
    rw [List.append_assoc]
    have hskip := hu.skipSpaces_blank hb rest'
    obtain ⟨c, v, hcv, -⟩ := hu.first
    rw [(he bound').cons, hskip, hre bound' bound' rest' (by omega) (by omega)]
    · rfl
    · rintro r hr
      rw [hskip, hcv] at hr
      refine hempty (v ++ rest) ?_
      rw [hur, hcv, (List.cons.inj hr).1]
      rfl

/-! ### Documents -/

theorem value_quoted {allow : Bool} {t rest : Text} {d : Document}
    (h : (stringBody (.scalar '\x22' :: t) 0 t).map (fun (s, rest) => (Document.str s, rest)) =
      .ok (d, rest)) :
    ∃ u, Piece u ∧ .scalar '\x22' :: t = u ++ rest ∧ ∀ bound nesting rest',
      value allow bound nesting (u ++ rest') = .ok (d, rest') := by
  obtain ⟨⟨text, r⟩, ht, hd⟩ := map_eq_ok.mp h
  cases hd
  obtain ⟨s, hs, rfl⟩ := stringBody_eq_ok.mp ht
  refine ⟨_, .quoted hs, ?_, fun bound nesting rest' => ?_⟩
  · simp only [List.cons_append, List.append_assoc, List.nil_append]
  · simp only [List.cons_append, List.append_assoc, List.nil_append]
    rw [value, stringBody_of_spelling _ hs]
    rfl

/-- A value is read from a piece of the text. -/
theorem value_local (allow : Bool) (nesting : Nat) :
    Local fun bound => value allow bound nesting := by
  have hbracket : Plain (.scalar '[') := by decide
  have hbrace : Plain (.scalar '\x7b') := by decide
  -- The induction is on the nesting, which the reader uses up at every bracket.
  induction nesting with
  | zero =>
    intro bound t d rest h
    dsimp only at h
    unfold value at h
    split at h
    · obtain ⟨u, hu, ht, hre⟩ := value_quoted h
      exact ⟨u, hu, ht, fun bound' rest' _ _ => hre bound' _ rest'⟩
    · cases h
    · cases h
    · contradiction
    · contradiction
    · obtain ⟨u, hu, ht, hre⟩ := scalar_local h
      exact ⟨u, hu, ht, fun bound' rest' _ hend => hre bound' _ rest' hend⟩
  | succ nesting ih =>
    intro bound t d rest h
    dsimp only at h
    unfold value at h
    split at h
    · obtain ⟨u, hu, ht, hre⟩ := value_quoted h
      exact ⟨u, hu, ht, fun bound' rest' _ _ => hre bound' _ rest'⟩
    · contradiction
    · contradiction
    · next hn =>
      cases hn
      obtain ⟨u, hu, rfl, hre⟩ := Encloses.local
        (fun bound => array_encloses bound (value allow bound nesting))
        (fun bound => items_lists _) ih hbracket (.inl rfl) h
      refine ⟨_, hu, rfl, fun bound' rest' hbound _ => ?_⟩
      exact hre bound' rest' (Nat.le_of_succ_le hbound)
    · next hn =>
      cases hn
      obtain ⟨u, hu, rfl, hre⟩ := Encloses.local
        (fun bound => object_encloses bound (value allow bound nesting))
        (fun bound => entries_lists _) (entry_local ih) hbrace (.inr rfl) h
      refine ⟨_, hu, rfl, fun bound' rest' hbound _ => ?_⟩
      exact hre bound' rest' (Nat.le_of_succ_le hbound)
    · obtain ⟨u, hu, ht, hre⟩ := scalar_local h
      exact ⟨u, hu, ht, fun bound' rest' _ hend => hre bound' _ rest' hend⟩

theorem Piece.document_eq {allow : Bool} {u : Text} {d : Document} (hu : Piece u)
    (h : value allow u.length nestingLimit u = .ok (d, [])) : document allow u = .ok d := by
  obtain ⟨c, v, rfl, hc⟩ := hu.first
  rw [document, skipSpaces_cons hc, h]
  · rfl
  · rintro w hw
    cases hw
    exact absurd hc (by decide)

/-- A document that is read is a piece with blanks around it, which is read alone too. -/
theorem exists_piece_of_document {allow : Bool} {t : Text} {d : Document}
    (h : document allow t = .ok d) :
    ∃ b u b', (∀ c ∈ b, isSpace c = true) ∧ Piece u ∧ (∀ c ∈ b', isSpace c = true) ∧
      t = b ++ (u ++ b') ∧ document allow u = .ok d := by
  unfold document at h
  split at h
  · cases h
  · obtain ⟨⟨d', rest⟩, hv, h⟩ := bind_eq_ok.mp h
    dsimp only at h
    split at h
    · next hrest =>
      cases h
      obtain ⟨b, hb, hbt⟩ := exists_skipSpaces t
      obtain ⟨b', hb', hbr⟩ := exists_skipSpaces rest
      rw [hrest, List.append_nil] at hbr
      subst hbr
      obtain ⟨u, hu, hur, hre⟩ := value_local allow nestingLimit hv
      rw [hur] at hbt
      have hend := hre u.length [] (Nat.le_refl _) nofun
      rw [List.append_nil] at hend
      exact ⟨b, u, rest, hb, hu, hb', hbt, hu.document_eq hend⟩
    · cases h

end Reader

/-! ### JSON texts -/

theorem CodePoint.Visible.isBlank {c : CodePoint} (h : c.Visible) : c.isBlank = false := by
  obtain ⟨h1, h2⟩ := h
  rw [← Bool.not_eq_true, CodePoint.isBlank, List.contains_iff_mem]
  simp only [blanks, List.mem_cons, List.not_mem_nil, or_false, not_or]
  omega

theorem CodePoint.isBlank_of_isSpace {c : CodePoint} (h : Reader.isSpace c = true) :
    c.isBlank = true := by
  simp only [Reader.isSpace, Bool.or_eq_true, beq_iff_eq] at h
  rcases h with ((rfl | rfl) | rfl) | rfl <;> decide

/-- The blanks around a piece of a text are stripped, and no more. -/
theorem Reader.Piece.strip_eq {b u b' : Text} (hu : Piece u)
    (hb : ∀ c ∈ b, isSpace c = true) (hb' : ∀ c ∈ b', isSpace c = true) :
    Text.strip (b ++ (u ++ b')) = u := by
  have hfirst : (b ++ (u ++ b')).dropWhile CodePoint.isBlank = u ++ b' := by
    obtain ⟨c, v, rfl, hc⟩ := hu.first
    rw [List.dropWhile_append_of_pos fun d hd => CodePoint.isBlank_of_isSpace (hb d hd),
      List.cons_append, List.dropWhile_cons_of_neg]
    rw [hc.isBlank]
    exact Bool.false_ne_true
  have hlast : (u ++ b').reverse.dropWhile CodePoint.isBlank = u.reverse := by
    obtain ⟨v, c, rfl, hc⟩ := hu.last
    rw [List.reverse_append, List.dropWhile_append_of_pos, List.reverse_append,
      List.reverse_singleton, List.singleton_append, List.dropWhile_cons_of_neg]
    · rw [hc.isBlank]
      exact Bool.false_ne_true
    · exact fun d hd => CodePoint.isBlank_of_isSpace (hb' d (List.mem_reverse.mp hd))
  rw [Text.strip, hfirst, hlast, List.reverse_reverse]

/-- A JSON text can stand in a literal, and says the same without the blanks around it. -/
theorem Json.read_strip {t : Text} {v : Json} (h : Json.read t = .ok v) :
    Markable t ∧ Json.read t.strip = .ok v := by
  obtain ⟨d, hd, hv⟩ := bind_eq_ok.mp h
  obtain ⟨b, u, b', hb, hu, hb', rfl, hdoc⟩ :=
    Reader.exists_piece_of_document (mapError_eq_ok.mp hd)
  refine ⟨(Reader.markable_blank hb).append (hu.markable.append (Reader.markable_blank hb')), ?_⟩
  rw [hu.strip_eq hb hb']
  exact bind_eq_ok.mpr ⟨d, mapError_eq_ok.mpr hdoc, hv⟩

end JsonQuery
