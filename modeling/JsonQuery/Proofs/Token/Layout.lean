/-
Blanks between tokens do not matter.

A token is taken from the start of a text whatever stands behind it, as long as the next code
point is the same or a blank.  So blanks may be inserted into a source at any place that is not
inside a token, and the source still says the same.

* `Text.widen` — a text with blanks inserted at its places;
* `Token.Contains` — the places inside a token of a source;
* `Lexeme.take_near` — a token does not depend on what follows the code point after it;
* `Tokens.ofSource_widen` — inserting blanks between tokens keeps what they say;
* `Tokens.ofSource_pipe` — sources put together with a pipe say what both say, one after the other.
-/
import JsonQuery.Proofs.Token.Place
import JsonQuery.Proofs.Token.Write

namespace JsonQuery

open Grammar (map_eq_ok bind_eq_ok)

/-- A text with something inserted at each of its places, which are counted from one on: before
every code point, and at the end. -/
def Text.widen (gaps : Nat → Text) : (place : Nat) → Text → Text
  | place, [] => gaps place
  | place, c :: t => gaps place ++ c :: widen gaps (place + 1) t

/-- How many code points of a source a token goes on for after its first one. -/
def Token.more (source : Text) (x : Token) : Nat :=
  match source.drop x.offset with
  | [] => 0
  | c :: t =>
    match Lexeme.take c t with
    | .ok (_, used) => used
    | .error _ => 0

/-- A place of a source is inside a token: between two of its code points. -/
def Token.Contains (source : Text) (x : Token) (place : Nat) : Prop :=
  x.offset < place ∧ place ≤ x.offset + x.more source

/-- A text consists of blanks. -/
def Text.Blank (t : Text) : Prop :=
  ∀ c ∈ t, Reader.isSpace c = true

instance (t : Text) : Decidable t.Blank :=
  inferInstanceAs (Decidable (∀ c ∈ t, Reader.isSpace c = true))

/-! ### Where tokens end -/

namespace Lexeme

/-- A text may stand where another one does: it starts like that one or with a blank, or it is
empty. -/
def Replaces (v r : Text) : Prop :=
  ∀ d ∈ v.head?, d ∈ r.head? ∨ Reader.isSpace d = true

/-- Where a run stops, it also stops before what may stand there. -/
theorem Replaces.stops {v r : Text} (h : Replaces v r) {p : CodePoint → Bool}
    (hs : ∀ d, Reader.isSpace d = true → p d = false) (hr : ∀ d ∈ r.head?, p d = false) :
    ∀ d ∈ v.head?, p d = false := by
  intro d hd
  rcases h d hd with hd | hd
  · exact hr d hd
  · exact hs d hd

theorem isSpace_cases {c : CodePoint} (h : Reader.isSpace c = true) :
    c = .scalar ' ' ∨ c = .scalar '\t' ∨ c = .scalar '\n' ∨ c = .scalar '\r' := by
  simpa only [Reader.isSpace, Bool.or_eq_true, beq_iff_eq, or_assoc] using h

theorem isIdentifierPart_of_isSpace {c : CodePoint} (h : Reader.isSpace c = true) :
    c.isIdentifierPart = false := by
  rcases isSpace_cases h with rfl | rfl | rfl | rfl <;> decide

theorem isDigit_of_isSpace {c : CodePoint} (h : Reader.isSpace c = true) : c.isDigit = false := by
  rcases isSpace_cases h with rfl | rfl | rfl | rfl <;> decide

/-- The run of code points at the start of a text ends before what may replace its rest. -/
theorem takeWhile_before {p : CodePoint → Bool} (hs : ∀ d, Reader.isSpace d = true → p d = false)
    (t : Text) {v : Text} (h : Replaces v (t.dropWhile p)) :
    (t.takeWhile p ++ v).takeWhile p = t.takeWhile p := by
  refine takeWhile_append (fun d hd => List.all_eq_true.mp List.all_takeWhile d hd) ?_
  refine h.stops hs ?_
  intro d hd
  have := List.head?_dropWhile_not p t
  rw [Option.mem_def.mp hd] at this
  simpa using this

/-- What stands before a delimiter holds no other one. -/
theorem shielded_of_delimited {delimiter : CodePoint} {t body : Text}
    (h : delimited delimiter t = some body) : Shielded delimiter body := by
  induction t using delimited.induct delimiter generalizing body with
  | case1 => cases h
  | case2 => cases h
  | case3 c t ih =>
    rw [delimited] at h
    obtain ⟨body', hb, rfl⟩ := Option.map_eq_some_iff.mp h
    exact .pair (ih hb)
  | case4 t h1 h2 =>
    rw [delimited, if_pos rfl] at h
    · cases h
      exact .nil
    · exact h1
    · exact h2
  | case5 c t h1 h2 hc ih =>
    rw [delimited, if_neg hc] at h
    · obtain ⟨body', hb, rfl⟩ := Option.map_eq_some_iff.mp h
      refine .plain ?_ hc (ih hb)
      rintro rfl
      cases t with
      | nil => exact h1 rfl rfl
      | cons d t => exact h2 d t rfl rfl
    · exact h1
    · exact h2

/-- A token between delimiters ends at the closing one. -/
theorem takeDelimited_before {delimiter : CodePoint} {t body : Text}
    (hd : delimiter ≠ .scalar '\\') (h : takeDelimited delimiter t = .ok body) :
    ∃ r, t = body ++ [delimiter] ++ r ∧
      ∀ v, takeDelimited delimiter (body ++ [delimiter] ++ v) = .ok body := by
  unfold takeDelimited at h
  split at h
  · next body' hb =>
    cases h
    obtain ⟨r, rfl⟩ := delimited_eq_some hb
    refine ⟨r, by simp, fun v => ?_⟩
    rw [List.append_assoc, List.singleton_append]
    exact takeDelimited_shielded hd (shielded_of_delimited hb) v
  · cases h

/-- The symbol at the start of a text does not go on there. -/
theorem endsBefore_of_symbol? {s : Symbol} {r : Text}
    (h : symbol? (Text.ofString s.text ++ r) = some s) : (Lexeme.symbol s).EndsBefore r := by
  intro d hd
  obtain ⟨r, rfl⟩ := List.head?_eq_some_iff.mp hd
  rw [← Bool.not_eq_true]
  intro hg
  -- Only the symbols that grow look at what stands behind them, and they would have grown.
  cases s <;> simp only [goesOn, Symbol.growth, List.any_cons, List.any_nil, Bool.or_false,
    Bool.or_eq_true, beq_iff_eq, Bool.false_eq_true] at hg
  case leftBracket =>
    rcases hg with rfl | rfl <;> cases h
  all_goals
    subst hg
    cases h

/-- The symbol at the start of a text is found there before anything that does not make it
longer. -/
theorem symbol?_before {c : CodePoint} {t : Text} {s : Symbol} (h : symbol? (c :: t) = some s) :
    ∃ u r, Text.ofString s.text = c :: u ∧ t = u ++ r ∧
      ∀ v, Replaces v r → symbol? (c :: (u ++ v)) = some s := by
  have hpre : (Text.ofString s.text).isPrefixOf (c :: t) = true := by
    simpa using List.find?_some h
  obtain ⟨r, hr⟩ := List.isPrefixOf_iff_prefix.mp hpre
  obtain ⟨d, u, hs, -, -⟩ := take_symbol s
  rw [hs, List.cons_append, List.cons.injEq] at hr
  obtain ⟨rfl, rfl⟩ := hr
  refine ⟨u, r, hs, rfl, fun v hv => ?_⟩
  rw [← List.cons_append, ← hs] at h ⊢
  refine symbol?_text s (hv.stops ?_ (endsBefore_of_symbol? h))
  intro d hd
  rcases isSpace_cases hd with rfl | rfl | rfl | rfl <;> cases s <;> rfl

/-- A way to take the rest of a token from a text that looks no further than the code point after
the token. -/
def Near (f : Text → Except ScanError (Lexeme × Nat)) : Prop :=
  ∀ ⦃t l used⦄, f t = .ok (l, used) →
    ∃ u r, t = u ++ r ∧ u.length = used ∧ ∀ v, Replaces v r → f (u ++ v) = .ok (l, used)

namespace Near
variable {f g : Text → Except ScanError (Lexeme × Nat)}

theorem ite {P : Prop} [Decidable P] (hf : P → Near f) (hg : ¬ P → Near g) :
    Near fun t => if P then f t else g t := by
  by_cases h : P
  · simp only [if_pos h]
    exact hf h
  · simp only [if_neg h]
    exact hg h

/-- What is made of a run of code points that are no blanks. -/
theorem run {p : CodePoint → Bool} (hs : ∀ d, Reader.isSpace d = true → p d = false)
    (f : Text → Except ScanError (Lexeme × Nat))
    (hf : ∀ u l used, f u = .ok (l, used) → u.length = used) : Near fun t => f (t.takeWhile p) := by
  intro t l used h
  refine ⟨_, _, List.takeWhile_append_dropWhile.symm, hf _ _ _ h, fun v hv => ?_⟩
  dsimp only
  rw [takeWhile_before hs t hv]
  exact h

/-- What is made of a text between delimiters. -/
theorem delimited {c : CodePoint} (hc : c ≠ .scalar '\\')
    (hf : ∀ body l used, f body = .ok (l, used) → body.length + 1 = used) :
    Near fun t => (takeDelimited c t).mapError .lex >>= f := by
  intro t l used h
  obtain ⟨body, hb, h⟩ := bind_eq_ok.mp h
  obtain ⟨r, ht, hr⟩ := takeDelimited_before hc (mapError_eq_ok.mp hb)
  refine ⟨_, r, ht, ?_, fun v _ => ?_⟩
  · rw [List.length_append, List.length_singleton, hf body l used h]
  · dsimp only
    rw [hr]
    exact h

/-- The longest symbol, if there is one. -/
theorem symbol (c : CodePoint) {other : Except ScanError (Lexeme × Nat)}
    (hother : ∀ x, other ≠ .ok x) :
    Near fun t => match symbol? (c :: t) with
      | some s => .ok (.symbol s, s.text.length - 1)
      | none => other := by
  intro t l used h
  dsimp only at h
  split at h
  · next s hs =>
    cases h
    obtain ⟨u, r, hu, rfl, hr⟩ := symbol?_before hs
    have hlen : s.text.length = u.length + 1 := by
      have := congrArg List.length hu
      rwa [Text.ofString, Text.ofChars, List.length_map, String.length_toList] at this
    refine ⟨u, r, rfl, by rw [hlen, Nat.add_sub_cancel], fun v hv => ?_⟩
    dsimp only
    rw [hr v hv]
  · exact absurd h (hother _)

end Near

/-- A lexeme that something is made into is as long as is said beside it. -/
theorem used_eq {α : Type} {x : Except ScanError α} {mk : α → Lexeme} {n used : Nat} {l : Lexeme}
    (h : (x >>= fun a => .ok (mk a, n)) = .ok (l, used)) : n = used := by
  obtain ⟨a, -, h⟩ := bind_eq_ok.mp h
  exact (Prod.mk.inj (Except.ok.inj h)).2

/-- A token does not depend on what follows the code point after it. -/
theorem take_near (c : CodePoint) : Near (take c) := by
  have hbackslash : ∀ d : Char, d ≠ '\\' → c = .scalar d → c ≠ .scalar '\\' := by
    rintro d hd rfl h
    exact hd (CodePoint.scalar.inj h)
  -- An identifier, a number, a sign, three kinds between delimiters, or a symbol.
  refine .ite (fun _ => ?_) fun _ => .ite (fun _ => ?_) fun _ => .ite (fun _ => ?_) fun _ =>
    .ite (fun hc => ?_) fun _ => .ite (fun hc => ?_) fun _ => .ite (fun hc => ?_) fun _ => ?_
  · exact .run (fun _ => isIdentifierPart_of_isSpace)
      (fun u => .ok (.identifier (c :: u), u.length))
      fun _ _ _ h => (Prod.mk.inj (Except.ok.inj h)).2
  · exact .run (fun _ => isDigit_of_isSpace)
      (fun u => ofDigits false (c :: u) >>= fun l => .ok (l, u.length))
      fun _ _ _ h => used_eq h
  · refine .run (fun _ => isDigit_of_isSpace)
      (fun u => if u.isEmpty then
          .error (.lex ⟨.invalidCharacter, "'-' must be followed by digits", 0⟩)
        else ofDigits true u >>= fun l => .ok (l, u.length))
      fun u l used h => ?_
    split at h
    · cases h
    · exact used_eq h
  · exact .delimited (hbackslash _ (by decide) hc) fun _ _ _ h => used_eq h
  · exact .delimited (hbackslash _ (by decide) hc) fun _ _ _ h =>
      (Prod.mk.inj (Except.ok.inj h)).2
  · exact .delimited (hbackslash _ (by decide) hc) fun _ _ _ h => used_eq h
  · refine .symbol c fun x => ?_
    split
    · exact nofun
    · exact nofun

end Lexeme

/-! ### Inserting blanks -/

open Lexeme Grammar

theorem Token.scan_blank {b : Text} (hb : b.Blank) (offset : Nat) (t : Text) :
    scan offset 0 (b ++ t) = scan (offset + b.length) 0 t := by
  induction b generalizing offset with
  | nil => rfl
  | cons c b ih =>
    obtain ⟨hc, hb⟩ := List.forall_mem_cons.mp hb
    rw [List.cons_append, scan, if_pos hc, ih hb, List.length_cons, Nat.add_right_comm,
      Nat.add_assoc]

section
variable {gaps : Nat → Text}

/-- Where nothing is inserted a text stays as it is. -/
theorem Text.widen_append {place : Nat} {u : Text}
    (h : ∀ p, place ≤ p → p < place + u.length → gaps p = []) (r : Text) :
    (u ++ r).widen gaps place = u ++ r.widen gaps (place + u.length) := by
  induction u generalizing place with
  | nil => rfl
  | cons c u ih =>
    rw [List.length_cons] at h ⊢
    have hu : ∀ p, place + 1 ≤ p → p < place + 1 + u.length → gaps p = [] :=
      fun p h1 h2 => h p (by omega) (by omega)
    rw [List.cons_append, widen, h place (Nat.le_refl _) (by omega), List.nil_append, ih hu,
      List.cons_append, Nat.add_right_comm, Nat.add_assoc]

/-- A text with blanks inserted starts with a blank or as it did. -/
theorem replaces_widen {place : Nat} (hb : (gaps place).Blank) (r : Text) :
    Replaces (r.widen gaps place) r := by
  intro d hd
  cases hg : gaps place with
  | nil =>
    cases r with
    | nil => simp [Text.widen, hg] at hd
    | cons c r => exact .inl (by simpa [Text.widen, hg] using hd)
  | cons c b =>
    have hc : c = d := by cases r <;> simpa [Text.widen, hg] using hd
    refine .inr (hb d ?_)
    rw [hg, hc]
    exact List.mem_cons_self

/-- The rest of a source says the same with blanks inserted. -/
theorem Token.scan_widen {source t : Text} {offset skip : Nat} {ts : List Token}
    (hb : ∀ p, (gaps p).Blank) (ht : source.drop offset = t) (h : scan offset skip t = .ok ts)
    (hin : ∀ x ∈ ts, ∀ p, x.Contains source p → gaps p = [])
    (hskip : ∀ p, offset ≤ p → p < offset + skip → gaps p = []) (place : Nat) :
    ∃ ts', scan place skip (t.widen gaps offset) = .ok ts' ∧ lexemes ts' = lexemes ts := by
  -- Along the text, whose place in the widened one grows by what was inserted before it.
  induction t generalizing offset skip ts place with
  | nil =>
    have hts : ts = [] := by cases skip <;> cases h <;> rfl
    subst hts
    refine ⟨[], ?_, rfl⟩
    rw [Text.widen]
    cases skip with
    | zero =>
      rw [← List.append_nil (gaps offset), scan_blank (hb offset)]
      rfl
    | succ skip =>
      rw [hskip offset (Nat.le_refl _) (by omega)]
      rfl
  | cons c t ih =>
    have ht' : source.drop (offset + 1) = t := by
      rw [← List.tail_drop, ht]
      rfl
    rw [Text.widen]
    cases skip with
    | succ skip =>
      rw [hskip offset (Nat.le_refl _) (by omega)]
      exact ih ht' h hin (fun p h1 h2 => hskip p (by omega) (by omega)) (place + 1)
    | zero =>
      rw [scan_blank (hb offset), scan]
      rw [scan] at h
      by_cases hc : Reader.isSpace c = true
      · rw [if_pos hc] at h ⊢
        exact ih ht' h hin (fun p h1 h2 => absurd h2 (by omega)) _
      · rw [if_neg hc] at h ⊢
        cases hl : take c t with
        | error e =>
          rw [hl] at h
          cases h
        | ok x =>
          obtain ⟨l, used⟩ := x
          rw [hl] at h
          obtain ⟨ts', hts, rfl⟩ := map_eq_ok.mp h
          obtain ⟨hx, hin⟩ := List.forall_mem_cons.mp hin
          have hmore : Token.more source ⟨l, offset⟩ = used := by simp only [Token.more, ht, hl]
          -- Nothing is inserted before the token ends, so it is taken as it was.
          have hgap : ∀ p, offset + 1 ≤ p → p < offset + 1 + used → gaps p = [] := by
            intro p h1 h2
            refine hx p ⟨h1, ?_⟩
            show p ≤ offset + _
            omega
          obtain ⟨ts'', hts'', hlex⟩ :=
            ih ht' hts hin hgap (place + (gaps offset).length + 1)
          obtain ⟨u, r, rfl, rfl, hr⟩ := take_near c hl
          rw [Text.widen_append hgap] at hts'' ⊢
          refine ⟨⟨l, place + (gaps offset).length⟩ :: ts'', ?_, ?_⟩
          · rw [hr _ (replaces_widen (hb _) r)]
            exact map_eq_ok.mpr ⟨ts'', hts'', rfl⟩
          · exact congrArg (l :: ·) hlex

/-- A source says the same with blanks inserted between its tokens. -/
theorem Tokens.ofSource_widen {source : Text} {tokens : Tokens} (h : ofSource source = .ok tokens)
    (hb : ∀ p, (gaps p).Blank)
    (hin : ∀ x ∈ tokens.items, ∀ p, x.Contains source p → gaps p = []) :
    ∃ tokens', ofSource (source.widen gaps 0) = .ok tokens' ∧
      lexemes tokens'.items = lexemes tokens.items := by
  obtain ⟨items, hs, rfl⟩ := map_eq_ok.mp h
  have hskip : ∀ p, 0 ≤ p → p < 0 + 0 → gaps p = [] := fun p _ h => absurd h (Nat.not_lt_zero p)
  obtain ⟨items', hs', hlex⟩ := Token.scan_widen hb rfl hs hin hskip 0
  exact ⟨_, map_eq_ok.mpr ⟨items', hs', rfl⟩, hlex⟩

end

/-! ### One text after another -/

theorem Text.widen_nil (place : Nat) (t : Text) : t.widen (fun _ => []) place = t := by
  induction t generalizing place with
  | nil => rfl
  | cons c t ih => exact congrArg (c :: ·) (ih (place + 1))

/-- A text says the same wherever it starts. -/
theorem Token.scan_elsewhere {t : Text} {offset skip : Nat} {ts : List Token}
    (h : scan offset skip t = .ok ts) (place : Nat) :
    ∃ ts', scan place skip t = .ok ts' ∧ lexemes ts' = lexemes ts := by
  have hdrop : (List.replicate offset (.scalar ' ') ++ t : Text).drop offset = t :=
    List.drop_left' List.length_replicate
  have hwiden : ∃ ts', scan place skip (t.widen (fun _ => []) offset) = .ok ts' ∧
      lexemes ts' = lexemes ts :=
    scan_widen (fun _ => List.forall_mem_nil _) hdrop h (fun _ _ _ _ => rfl) (fun _ _ _ => rfl)
      place
  rwa [Text.widen_nil] at hwiden

/-- What a text says does not depend on what follows a blank after it. -/
theorem Token.scan_append {t b : Text} {offset skip : Nat} {ts : List Token}
    (hb : ∀ d ∈ b.head?, Reader.isSpace d = true) (hs : skip ≤ t.length)
    (h : scan offset skip t = .ok ts) :
    scan offset skip (t ++ b) = (scan (offset + t.length) 0 b).map (ts ++ ·) := by
  induction t generalizing offset skip ts with
  | nil =>
    obtain rfl : skip = 0 := Nat.le_zero.mp hs
    cases h
    rw [List.nil_append, List.length_nil, Nat.add_zero]
    cases scan offset 0 b <;> rfl
  | cons c t ih =>
    have hlen : offset + 1 + t.length = offset + (c :: t).length := by
      rw [List.length_cons]
      omega
    rw [← hlen]
    cases skip with
    | succ skip => exact ih (Nat.le_of_succ_le_succ hs) h
    | zero =>
      rw [List.cons_append, scan]
      rw [scan] at h
      by_cases hc : Reader.isSpace c = true
      · rw [if_pos hc] at h ⊢
        exact ih (Nat.zero_le _) h
      · rw [if_neg hc] at h ⊢
        cases hl : take c t with
        | error e =>
          rw [hl] at h
          cases h
        | ok x =>
          obtain ⟨l, used⟩ := x
          rw [hl] at h
          obtain ⟨ts', hts, rfl⟩ := map_eq_ok.mp h
          obtain ⟨u, r, rfl, rfl, hr⟩ := take_near c hl
          have hrep : Replaces (r ++ b) r := by
            intro d hd
            cases r with
            | nil => exact .inr (hb d hd)
            | cons => exact .inl hd
          rw [List.append_assoc, hr _ hrep, ← List.append_assoc]
          dsimp only
          rw [ih (by rw [List.length_append]; exact Nat.le_add_right _ _) hts]
          cases scan (offset + 1 + (u ++ r).length) 0 b <;> rfl

/-- Two sources with a pipe between them say what both say, with a pipe between. -/
theorem Tokens.ofSource_pipe {s s' : Text} {tokens tokens' : Tokens}
    (h : ofSource s = .ok tokens) (h' : ofSource s' = .ok tokens') :
    ∃ all, ofSource (s ++ " | " ++ s') = .ok all ∧
      lexemes all.items = lexemes tokens.items ++ .symbol .pipe :: lexemes tokens'.items := by
  obtain ⟨ts, hs, rfl⟩ := map_eq_ok.mp h
  obtain ⟨ts', hs', rfl⟩ := map_eq_ok.mp h'
  obtain ⟨ts'', hs'', hlex⟩ := Token.scan_elsewhere hs' (0 + s.length + 3)
  have hpipe : Token.scan (0 + s.length) 0 (" | " ++ s') =
      .ok (⟨.symbol .pipe, 0 + s.length + 1⟩ :: ts'') := by
    change (Token.scan (0 + s.length + 3) 0 s').map
      (⟨.symbol .pipe, 0 + s.length + 1⟩ :: ·) = _
    rw [hs'']
    rfl
  have hblank : ∀ d ∈ (" | " ++ s' : Text).head?, Reader.isSpace d = true := by
    rintro d ⟨⟩
    rfl
  refine ⟨⟨ts ++ ⟨.symbol .pipe, 0 + s.length + 1⟩ :: ts'', _⟩, map_eq_ok.mpr ⟨_, ?_, rfl⟩, ?_⟩
  · rw [List.append_assoc, Token.scan_append hblank (Nat.zero_le _) hs, hpipe]
    rfl
  · rw [lexemes_append, lexemes_cons, hlex]

end JsonQuery
