/-
Where a source is refused.

The tokens of a source are numbered, and the end of the source has the number after the last.  An
error of the parser names the first of them that is one too many: no tokens that start as these
do, up to it, are an expression, but those before it can be continued to one.

* `Tokens.place_inj` — tokens of a source are told apart by their offsets;
* `Tokens.Accepted` — tokens that are an expression, however deeply it is nested;
* `tooDeep_of_accepted` — tokens that are an expression are only refused for their nesting;
* `parse_error_earliest` — errors of the parser are told at the earliest token.
-/
import JsonQuery.Proofs.Grammar.Earliest
import JsonQuery.Proofs.Grammar.Source
import JsonQuery.Proofs.Token.Place

namespace JsonQuery

open Grammar JsonQuery.Parser

/-! ### The places of tokens -/

/-- Where a token starts, by its number.  After the last token comes the end of the source. -/
def Tokens.place (tokens : Tokens) (i : Nat) : Nat :=
  Parser.place tokens.stop (tokens.items.drop i)

namespace Tokens

theorem place_eq {tokens : Tokens} {i : Nat} (h : i < tokens.items.length) :
    tokens.place i = tokens.items[i].offset := by
  rw [place, List.drop_eq_getElem_cons h]
  rfl

theorem place_length (tokens : Tokens) : tokens.place tokens.items.length = tokens.stop := by
  rw [place, List.drop_length]
  rfl

theorem place_append {tokens : Tokens} {u r : List Token} (h : tokens.items = u ++ r) :
    tokens.place u.length = Parser.place tokens.stop r := by
  rw [place, h, List.drop_left]

/-- The end of a source is where its text ends. -/
theorem ofSource_stop {source : Text} {tokens : Tokens} (h : ofSource source = .ok tokens) :
    tokens.stop = source.length := by
  obtain ⟨items, -, rfl⟩ := map_eq_ok.mp h
  rfl

theorem place_lt_stop {source : Text} {tokens : Tokens} (h : ofSource source = .ok tokens)
    {i : Nat} (hi : i < tokens.items.length) : tokens.place i < tokens.stop := by
  obtain ⟨items, hs, rfl⟩ := map_eq_ok.mp h
  have := (Token.scan_offset hs (List.getElem_mem hi)).2
  rw [place_eq hi]
  rwa [Nat.zero_add] at this

theorem place_lt {source : Text} {tokens : Tokens} (h : ofSource source = .ok tokens) {i j : Nat}
    (hij : i < j) (hj : j ≤ tokens.items.length) : tokens.place i < tokens.place j := by
  rcases Nat.lt_or_eq_of_le hj with hj | rfl
  · obtain ⟨items, hs, rfl⟩ := map_eq_ok.mp h
    rw [place_eq (Nat.lt_trans hij hj), place_eq hj]
    exact List.pairwise_iff_getElem.mp (Token.scan_sorted hs) i j _ _ hij
  · rw [place_length]
    exact place_lt_stop h hij

/-- The tokens of a source are told apart by their offsets. -/
theorem place_inj {source : Text} {tokens : Tokens} (h : ofSource source = .ok tokens) {i j : Nat}
    (hi : i ≤ tokens.items.length) (hj : j ≤ tokens.items.length)
    (hij : tokens.place i = tokens.place j) : i = j := by
  rcases Nat.lt_trichotomy i j with hlt | rfl | hlt
  · exact absurd hij (Nat.ne_of_lt (place_lt h hlt hj))
  · rfl
  · exact absurd hij.symm (Nat.ne_of_lt (place_lt h hlt hi))

/-- The tokens of a source from one of them on are told by its offset. -/
theorem suffix_inj {source : Text} {tokens : Tokens} (h : ofSource source = .ok tokens)
    {t t' : Token} {v v' : List Token} (hv : t :: v <:+ tokens.items)
    (hv' : t' :: v' <:+ tokens.items) (ho : t.offset = t'.offset) : t :: v = t' :: v' := by
  obtain ⟨u, hu⟩ := hv
  obtain ⟨u', hu'⟩ := hv'
  have hplace : tokens.place u.length = tokens.place u'.length := by
    rw [place_append hu.symm, place_append hu'.symm]
    exact ho
  have hlen : u.length ≤ tokens.items.length := List.IsPrefix.length_le ⟨_, hu⟩
  have hlen' : u'.length ≤ tokens.items.length := List.IsPrefix.length_le ⟨_, hu'⟩
  exact (List.append_inj (hu.trans hu'.symm) (place_inj h hlen hlen' hplace)).2

/-- Some tokens are an expression, however deeply it is nested. -/
def Accepted (tokens : Tokens) : Prop :=
  ∃ nesting e, expression tokens.stop tokens.items.length nesting 0 tokens.items = .ok (e, [])

theorem accepted_iff {tokens : Tokens} :
    tokens.Accepted ↔ ∃ n b, Reads n 0 (lexemes tokens.items) b [] := by
  constructor
  · rintro ⟨n, e, he⟩
    exact ⟨n, e.bare, (sound_expression _ _ n (Nat.le_refl _) he).1⟩
  · rintro ⟨n, b, hb⟩
    obtain ⟨e, rest, he, -, hr, -⟩ := (complete_expression tokens.stop _ n).gives (Nat.le_refl _) hb
    obtain rfl : rest = [] := List.map_eq_nil_iff.mp hr
    exact ⟨n, e, he⟩

end Tokens

/-! ### The errors of the parser -/

/-- What is left after an expression is blamed as the rest of one is. -/
theorem ofTokens_blames {tokens : Tokens} {err : ParseError}
    (h : Expr.ofTokens tokens = .error err) :
    Blames tokens.stop (fun m ls e (_ : List Lexeme) => Reads m 0 ls e [])
      (Reads (nestingLimit + 1) 0) tokens.items err := by
  rw [Expr.ofTokens, bind_eq_error] at h
  rcases h with h | ⟨⟨e, rest⟩, he, h⟩
  · refine (blames_expression tokens.stop _ nestingLimit (Nat.le_refl _) h).lift [] ?_ ?_
    · intro m ls _ e _ he
      exact ⟨m, e, [], he⟩
    · intro ls e _ he
      exact ⟨ls, e, .refl ls, he⟩
  · obtain ⟨w, hw, hr⟩ := expression_prefix (Nat.le_refl _) he
    rw [hw]
    refine .here w ?_ ?_ ⟨[], e.bare, rfl, reads_succ (hr (.inr rfl))⟩
    · dsimp only at h
      split at h
      · cases h
      · next s o rest =>
        split at h
        · next hs => exact pointsTo_refuse h (.inr ⟨s, rfl, hs⟩)
        · exact pointsTo_refuse h (.inl rfl)
      · exact pointsTo_refuse h (.inl rfl)
    · intro m ls hl e' _ he'
      obtain ⟨-, rfl⟩ := reads_unique (hr (.inl hl.symm)) he'
      obtain rfl : rest = [] := List.map_eq_nil_iff.mp (List.head?_eq_none_iff.mp hl.symm)
      cases h

/-- Tokens that are an expression are only refused for their nesting. -/
theorem tooDeep_of_accepted {tokens : Tokens} {err : ParseError}
    (h : Expr.ofTokens tokens = .error err) (ha : tokens.Accepted) : err.problem = .tooDeep := by
  refine Classical.byContradiction fun hd => ?_
  obtain ⟨n, b, hb⟩ := Tokens.accepted_iff.mp ha
  obtain ⟨u, r, hur, -, hblame⟩ := ofTokens_blames h
  rw [hur, lexemes_append] at hb
  exact (hblame hd).1 rfl b [] hb

/-- An error of the parser is told at the earliest token: no tokens that start with those up to it
are an expression, and some that start with those before it are. -/
theorem parse_error_earliest {source : Text} {tokens : Tokens} {err : ParseError}
    (ht : Tokens.ofSource source = .ok tokens) (he : Expr.ofTokens tokens = .error err)
    (hd : err.problem ≠ .tooDeep) :
    (∃ i ≤ tokens.items.length, err.offset = tokens.place i) ∧
      ∀ i ≤ tokens.items.length, err.offset = tokens.place i →
        (∀ more : Tokens, tokens.items.take i <+: more.items →
          more.items[i]? = tokens.items[i]? → ¬ more.Accepted) ∧
        ∃ more : Tokens, tokens.items.take i <+: more.items ∧ more.Accepted := by
  obtain ⟨u, r, hur, hp, h⟩ := ofTokens_blames he
  obtain ⟨hr, v, e, -, hv⟩ := h hd
  have hu : u.length ≤ tokens.items.length := by
    rw [hur, List.length_append]
    exact Nat.le_add_right _ _
  have hplace : err.offset = tokens.place u.length := by
    rw [hp.offset, Tokens.place_append hur]
  refine ⟨⟨u.length, hu, hplace⟩, ?_⟩
  intro i hi hplace'
  -- The offset tells the token, so its number is that of the one blamed.
  obtain rfl := Tokens.place_inj ht hu hi (hplace.symm.trans hplace')
  rw [hur, List.take_left]
  constructor
  · rintro more ⟨after, hm⟩ hnext hmore
    obtain ⟨n, b, hb⟩ := Tokens.accepted_iff.mp hmore
    rw [← hm, lexemes_append] at hb
    rw [← hm, List.getElem?_append_right (Nat.le_refl _),
      List.getElem?_append_right (Nat.le_refl _), Nat.sub_self, ← List.head?_eq_getElem?,
      ← List.head?_eq_getElem?] at hnext
    refine hr ?_ b [] hb
    rw [lexemes, lexemes, List.head?_map, List.head?_map, hnext]
  · refine ⟨⟨u ++ plain v, 0⟩, List.prefix_append _ _, ?_⟩
    refine Tokens.accepted_iff.mpr ⟨nestingLimit + 1, e, ?_⟩
    rw [lexemes_append, lexemes_plain]
    exact hv

/-- In `a < b < c` the second comparison is one too many. -/
theorem second_comparison_earliest :
    let tokens : Tokens := ⟨[⟨.identifier "a", 0⟩, ⟨.symbol .lt, 2⟩, ⟨.identifier "b", 4⟩,
      ⟨.symbol .lt, 6⟩, ⟨.identifier "c", 8⟩], 9⟩
    let err : ParseError := ⟨.unexpectedToken, (Lexeme.symbol .lt).describe,
      "comparisons cannot be chained, use parentheses", 6⟩
    Tokens.ofSource "a < b < c" = .ok tokens ∧ Expr.ofTokens tokens = .error err ∧
      err.problem ≠ .tooDeep ∧ err.offset = tokens.place 3 ∧
      (∀ more : Tokens, tokens.items.take 3 <+: more.items →
        more.items[3]? = tokens.items[3]? → ¬ more.Accepted) ∧
      ∃ more : Tokens, tokens.items.take 3 <+: more.items ∧ more.Accepted := by
  intro tokens err
  have ht : Tokens.ofSource "a < b < c" = .ok tokens := rfl
  have he : Expr.ofTokens tokens = .error err := rfl
  have hd : err.problem ≠ .tooDeep := nofun
  exact ⟨ht, he, hd, rfl, (parse_error_earliest ht he hd).2 3 (Nat.le_add_right 3 2) rfl⟩

end JsonQuery
