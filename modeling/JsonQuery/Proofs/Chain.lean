/-
Chains of postfix operators.

A chain is a sequence of links: names, calls, wildcards, selections, indices, slices and filters,
each standing after what it is applied to.  Links are given by their lexemes; the expressions in
them are arbitrary, and whatever link is built is one that can be read.

* `Link` — the links, with `Link.lexemes` and `chain`;
* `Head` — what a chain may follow: a name or an expression in parentheses;
* `Link.Extends` — what a link makes of the tree before it;
* `extension_link` — the grammar reads nothing else where a link stands.
-/
import JsonQuery.Proofs.Grammar.Source

namespace JsonQuery

open Grammar JsonQuery.Parser

/-- The name of a field, with or without quotes. -/
structure Key where
  name : Text
  quoted : Bool

/-- A key as it is spelled. -/
def Key.lexeme (k : Key) : Lexeme :=
  if k.quoted then .quotedIdentifier k.name else .identifier k.name

/-- An expression given by its lexemes. -/
structure Phrase where
  lexemes : List Lexeme
  whole : Whole lexemes

/-- The links of chains. -/
inductive Link where
  | field (key : Key)
  | call (name : Text) (args : List Phrase)
  | values
  | list (first : Phrase) (more : List Phrase)
  | hash (first : Key × Phrase) (more : List (Key × Phrase))
  | index (i : Int)
  /-- A slice; its second colon may be left out with the step. -/
  | slice (start stop : Option Int) (step : Option (Option Int))
  | items
  | filter (predicate : Phrase)

/-- Some lexemes, and others each after a comma. -/
def commas (first : List Lexeme) : List (List Lexeme) → List Lexeme
  | [] => first
  | p :: ps => first ++ .symbol .comma :: commas p ps

/-- A key and its expression as they are spelled. -/
def pairLexemes (p : Key × Phrase) : List Lexeme :=
  p.1.lexeme :: .symbol .colon :: p.2.lexemes

/-- A part of a slice as it is spelled. -/
def partLexemes : Option Int → List Lexeme
  | none => []
  | some i => [.number i]

/-- The inside of a slice as it is spelled. -/
def sliceLexemes (start stop : Option Int) : Option (Option Int) → List Lexeme
  | none => partLexemes start ++ .symbol .colon :: partLexemes stop
  | some step =>
    partLexemes start ++ .symbol .colon :: (partLexemes stop ++ .symbol .colon :: partLexemes step)

namespace Link

/-- Whether a link follows a dot. -/
def dotted : Link → Bool
  | .field _ | .call _ _ | .values | .list _ _ | .hash _ _ => true
  | .index _ | .slice _ _ _ | .items | .filter _ => false

/-- Whether a link selects several values at once. -/
def selects : Link → Bool
  | .list _ _ | .hash _ _ => true
  | _ => false

/-- The arguments of a call as they are spelled. -/
def argLexemes : List Phrase → List Lexeme
  | [] => []
  | p :: ps => commas p.lexemes (ps.map Phrase.lexemes)

/-- A link as it is spelled, its dot left out. -/
def undotted : Link → List Lexeme
  | .field key => [key.lexeme]
  | .call name args =>
    .identifier name :: .symbol .leftParen :: (argLexemes args ++ [.symbol .rightParen])
  | .values => [.symbol .star]
  | .list first more =>
    .symbol .leftBracket ::
      (commas first.lexemes (more.map Phrase.lexemes) ++ [.symbol .rightBracket])
  | .hash first more =>
    .symbol .leftBrace ::
      (commas (pairLexemes first) (more.map pairLexemes) ++ [.symbol .rightBrace])
  | .index i => [.symbol .leftBracket, .number i, .symbol .rightBracket]
  | .slice start stop step =>
    .symbol .leftBracket :: (sliceLexemes start stop step ++ [.symbol .rightBracket])
  | .items => [.symbol .leftBracket, .symbol .star, .symbol .rightBracket]
  | .filter p => .symbol .filter :: (p.lexemes ++ [.symbol .rightBracket])

/-- A link as it is spelled. -/
def lexemes (k : Link) : List Lexeme :=
  if k.dotted then .symbol .dot :: k.undotted else k.undotted

/-- How tightly a link binds what stands before it. -/
def power : Link → Nat
  | .field _ | .call _ _ | .values | .list _ _ | .hash _ _ => Lexeme.power (.symbol .dot)
  | .index _ | .slice _ _ _ | .items => Lexeme.power (.symbol .leftBracket)
  | .filter _ => Lexeme.power (.symbol .filter)

theorem lexemes_of_dotted {k : Link} (hk : k.dotted = true) :
    k.lexemes = .symbol .dot :: k.undotted :=
  if_pos hk

theorem lexemes_of_not_dotted {k : Link} (hk : k.dotted = false) : k.lexemes = k.undotted :=
  if_neg (by rw [hk]; exact Bool.noConfusion)

theorem headPower_lexemes (k : Link) (ts : List Lexeme) :
    headPower (k.lexemes ++ ts) = k.power := by
  cases k <;> rfl

theorem starPower_lt_power (k : Link) : starPower < k.power := by
  cases k <;> simp [power, starPower, Lexeme.power]

end Link

/-- A chain as it is spelled. -/
def chain : List Link → List Lexeme
  | [] => []
  | k :: C => k.lexemes ++ chain C

/-- A chain as it is spelled at the start of an expression, where its first link has no dot. -/
def undotted : List Link → List Lexeme
  | [] => []
  | k :: C => k.undotted ++ chain C

/-- Any chain binds more tightly than projections ask for. -/
theorem chain_of_headPower_le {C : List Link} (h : headPower (chain C) ≤ starPower) : C = [] := by
  cases C with
  | nil => rfl
  | cons k C =>
    rw [chain, Link.headPower_lexemes] at h
    exact absurd (Link.starPower_lt_power k) (Nat.not_lt_of_le h)

/-- What binds tightly enough to go on with is a link. -/
theorem exists_link_of_lt {C : List Link} {least : Nat} (h : least < headPower (chain C)) :
    ∃ k D, C = k :: D ∧ least < k.power := by
  cases C with
  | nil => exact absurd h (Nat.not_lt_zero _)
  | cons k C =>
    rw [chain, Link.headPower_lexemes] at h
    exact ⟨k, C, rfl, h⟩

/-- What chains follow: a name, or an expression in parentheses. -/
inductive Head where
  | name (key : Key)
  | group (p : Phrase)

/-- A head as it is spelled. -/
def Head.lexemes : Head → List Lexeme
  | .name key => [key.lexeme]
  | .group p => .symbol .leftParen :: (p.lexemes ++ [.symbol .rightParen])

theorem Key.lexeme_ne_symbol (k : Key) (s : Symbol) : k.lexeme ≠ .symbol s := by
  unfold Key.lexeme
  split <;> nofun

/-! ### Where the expressions in a link end -/

section
variable {n : Nat} {ts rest : List Lexeme}

theorem elements_commas {first : Phrase} {more : List Phrase} {es : List Expr}
    (h : Elements (Reads n)
      (commas first.lexemes (more.map Phrase.lexemes) ++ .symbol .rightBracket :: ts) es rest) :
    rest = ts := by
  -- Each expression ends before the comma or the bracket after it, and nowhere else.
  induction more generalizing first es with
  | nil =>
    cases h with
    | last h => exact (List.cons.inj (first.whole.rest_eq rfl h)).2
    | more h => cases first.whole.rest_eq rfl h
  | cons p ps ih =>
    rw [List.map_cons, commas, List.append_assoc, List.cons_append] at h
    cases h with
    | last h => cases first.whole.rest_eq rfl h
    | more h hm =>
      obtain rfl := (List.cons.inj (first.whole.rest_eq rfl h)).2
      exact ih hm

theorem pairs_commas {first : Key × Phrase} {more : List (Key × Phrase)}
    {ps : List (Text × Expr)}
    (h : Pairs (Reads n)
      (commas (pairLexemes first) (more.map pairLexemes) ++ .symbol .rightBrace :: ts) ps rest) :
    rest = ts := by
  induction more generalizing first ps with
  | nil =>
    rw [List.map_nil, commas, pairLexemes, List.cons_append, List.cons_append] at h
    cases h with
    | last _ h => exact (List.cons.inj (first.2.whole.rest_eq rfl h)).2
    | more _ h => cases first.2.whole.rest_eq rfl h
  | cons p ps ih =>
    rw [List.map_cons, commas, pairLexemes, List.append_assoc, List.cons_append, List.cons_append,
      List.cons_append] at h
    cases h with
    | last _ h => cases first.2.whole.rest_eq rfl h
    | more _ h hm =>
      obtain rfl := (List.cons.inj (first.2.whole.rest_eq rfl h)).2
      exact ih hm

/-- No expression starts with a closing symbol. -/
theorem Whole.opens {s : Symbol} {ls : List Lexeme} (hw : Whole ls) (hs : isCloser s = true)
    (ts : List Lexeme) : ls ++ ts ≠ .symbol s :: rest := by
  obtain ⟨m, e, h⟩ := whole_iff.mp hw
  obtain ⟨t, u, rfl, -⟩ := local_reads m h
  intro hc
  obtain ⟨rfl, -⟩ := List.cons.inj hc
  have := reads_opens hs h
  simp [startsWith] at this

theorem arguments_commas {args : List Phrase} {es : List Expr}
    (h : Arguments (Reads n) (Link.argLexemes args ++ .symbol .rightParen :: ts) es rest) :
    rest = ts := by
  cases args with
  | nil =>
    rw [Link.argLexemes, List.nil_append] at h
    cases h with
    | none => rfl
    | last h => exact absurd (reads_opens (s := .rightParen) rfl h) (by simp [startsWith])
    | more h => exact absurd (reads_opens (s := .rightParen) rfl h) (by simp [startsWith])
  | cons first more =>
    rw [Link.argLexemes] at h
    induction more generalizing first es with
    | nil =>
      generalize hl : commas first.lexemes ([].map Phrase.lexemes) ++ .symbol .rightParen :: ts = l
        at h
      cases h with
      | none => exact absurd hl (first.whole.opens rfl _)
      | last h =>
        subst hl
        exact (List.cons.inj (first.whole.rest_eq rfl h)).2
      | more h =>
        subst hl
        cases first.whole.rest_eq rfl h
    | cons p ps ih =>
      rw [List.map_cons, commas, List.append_assoc, List.cons_append] at h
      generalize hl : first.lexemes ++ _ = l at h
      cases h with
      | none => exact absurd hl (first.whole.opens rfl _)
      | last h =>
        subst hl
        cases first.whole.rest_eq rfl h
      | more h _ hm =>
        subst hl
        obtain rfl := (List.cons.inj (first.whole.rest_eq rfl h)).2
        exact ih _ hm

/-! ### Slices -/

theorem sliceParts_part {i : Nat} {s r : Slice} {v : Option Int}
    (hs : slicePart s i = none)
    (h : SliceParts i (v.elim s fun v => setSlicePart s v i) ts r rest) :
    SliceParts i s (partLexemes v ++ ts) r rest := by
  cases v with
  | none => exact h
  | some v => exact .number hs h

theorem bracket_sliceLexemes (start stop : Option Int) (step : Option (Option Int))
    (ts : List Lexeme) :
    Bracket (sliceLexemes start stop step ++ .symbol .rightBracket :: ts)
      (.slice ⟨start, stop, step.join⟩) ts := by
  refine .slice (by cases step <;> cases start <;> rfl) ?_
  cases step with
  | none =>
    rw [sliceLexemes, List.append_assoc, List.cons_append]
    refine sliceParts_part rfl (.colon (by decide) (sliceParts_part (by cases start <;> rfl) ?_))
    cases start <;> cases stop <;> exact .close
  | some step =>
    rw [sliceLexemes, List.append_assoc, List.cons_append, List.append_assoc, List.cons_append]
    refine sliceParts_part rfl (.colon (by decide) (sliceParts_part (by cases start <;> rfl)
      (.colon (by decide) (sliceParts_part (by cases start <;> cases stop <;> rfl) ?_))))
    cases start <;> cases stop <;> cases step <;> exact .close

theorem opensIndex_sliceLexemes (start stop : Option Int) (step : Option (Option Int))
    (ts : List Lexeme) : opensIndex (sliceLexemes start stop step ++ ts) = true := by
  cases step <;> cases start <;> rfl

/-! ### Links -/

/-- What a link makes of the tree before it and of the lexemes after it. -/
def Link.Extends (n : Nat) (left : Expr) (ts : List Lexeme) (e : Expr) (rest : List Lexeme) :
    Link → Prop
  | .field key => ∃ right, Reads n (Lexeme.power (.symbol .dot)) (key.lexeme :: ts) right rest ∧
      e = .binary .step left right 0
  | .call name args => ∃ right,
      Reads n (Lexeme.power (.symbol .dot)) ((Link.call name args).undotted ++ ts) right rest ∧
      e = .binary .step left right 0
  | .values => ∃ right, Projected (Reads n) (Lexeme.power (.symbol .dot)) ts right rest ∧
      e = .binary .eachValue left right 0
  | .list first more => ∃ es, Elements (Reads n)
        (commas first.lexemes (more.map Phrase.lexemes) ++ .symbol .rightBracket :: ts) es rest ∧
      rest = ts ∧ e = .binary .step left (.list es 0) 0
  | .hash first more => ∃ ps, Pairs (Reads n)
        (commas (pairLexemes first) (more.map pairLexemes) ++ .symbol .rightBrace :: ts) ps rest ∧
      rest = ts ∧ e = .binary .step left (.hash ps 0) 0
  | .index i => rest = ts ∧ e = indexed left (.index i)
  | .slice start stop step => ∃ right, Projected (Reads n) starPower ts right rest ∧
      e = .binary .eachItem (indexed left (.slice ⟨start, stop, step.join⟩)) right 0
  | .items => ∃ right, Projected (Reads n) starPower ts right rest ∧
      e = .binary .eachItem left right 0
  | .filter p => ∃ predicate right,
      Reads n 0 (p.lexemes ++ .symbol .rightBracket :: ts) predicate (.symbol .rightBracket :: ts) ∧
      Projected (Reads n) (Lexeme.power (.symbol .filter)) ts right rest ∧
      e = .filter left predicate right 0

/-- What a link makes of the lexemes after it where it starts an expression. -/
def Link.Opens (n : Nat) (ts : List Lexeme) (e : Expr) (rest : List Lexeme) : Link → Prop
  | .field key => e = .atom (.field key.name) 0 ∧ rest = ts
  | .call name args => ∃ es,
      Arguments (Reads n) (argLexemes args ++ .symbol .rightParen :: ts) es rest ∧
      e = .call name es 0 ∧ rest = ts
  | .values => ∃ right, Projected (Reads n) starPower ts right rest ∧
      e = .binary .eachValue implicit right 0
  | k => k.Extends n implicit ts e rest

variable {left e : Expr}

theorem Link.Opens.extends {k : Link} (hk : k.dotted = false) (h : k.Opens n ts e rest) :
    k.Extends n implicit ts e rest := by
  cases k with
  | field | call | values | list | hash => cases hk
  | index | slice | items | filter => exact h

theorem bracketed_index {i : Int}
    (h : Bracketed (Reads n) left (.number i :: .symbol .rightBracket :: ts) e rest) :
    (Link.index i).Extends n left ts e rest := by
  have hi : Bracket (.number i :: .symbol .rightBracket :: ts) (.index i) ts := .index
  cases h with
  | index h =>
    obtain ⟨ha, rfl⟩ := bracket_unique h hi
    cases ha
    exact ⟨rfl, rfl⟩
  | slice h => cases (bracket_unique h hi).1

theorem bracketed_slice {start stop : Option Int} {step : Option (Option Int)}
    (h : Bracketed (Reads n) left
      (sliceLexemes start stop step ++ .symbol .rightBracket :: ts) e rest) :
    (Link.slice start stop step).Extends n left ts e rest := by
  have hs := bracket_sliceLexemes start stop step ts
  cases h with
  | index h => cases (bracket_unique h hs).1
  | slice h hp =>
    obtain ⟨ha, rfl⟩ := bracket_unique h hs
    cases ha
    exact ⟨_, hp, rfl⟩

theorem filtered_filter {p : Phrase}
    (h : Filtered (Reads n) left (p.lexemes ++ .symbol .rightBracket :: ts) e rest) :
    (Link.filter p).Extends n left ts e rest := by
  cases h with
  | intro h hp =>
    obtain rfl := (List.cons.inj (p.whole.rest_eq rfl h)).2
    exact ⟨_, _, h, hp, rfl⟩

/-- Where a name follows a dot, it is read as an expression. -/
theorem extension_key {key : Key}
    (h : Extension (Reads n) left (.symbol .dot :: key.lexeme :: ts) e rest) :
    ∃ right, Reads n (Lexeme.power (.symbol .dot)) (key.lexeme :: ts) right rest ∧
      e = .binary .step left right 0 := by
  generalize hk : key.lexeme = l at h
  cases h with
  | values => exact absurd hk (key.lexeme_ne_symbol _)
  | step _ h =>
    cases h with
    | expr _ h => exact ⟨_, h, rfl⟩
    | list | hash => exact absurd hk (key.lexeme_ne_symbol _)
  | infixed h | compare h => cases h

/-- Where a link stands, the grammar extends the tree before it by that link. -/
theorem extension_link {k : Link} (h : Extension (Reads n) left (k.lexemes ++ ts) e rest) :
    k.Extends n left ts e rest := by
  cases k with
  | field key => exact extension_key h
  | call name args =>
    -- The name of a call is read as the name of a field is.
    have h : Extension (Reads n) left (.symbol .dot :: Key.lexeme ⟨name, false⟩ ::
        (.symbol .leftParen :: (Link.argLexemes args ++ [.symbol .rightParen]) ++ ts)) e rest := h
    exact extension_key h
  | values =>
    change Extension (Reads n) left (.symbol .dot :: .symbol .star :: ts) e rest at h
    cases h with
    | values h => exact ⟨_, h, rfl⟩
    | step hs => exact absurd hs (by simp [startsWith])
    | infixed h | compare h => cases h
  | list first more =>
    rw [Link.lexemes_of_dotted rfl, Link.undotted, List.cons_append, List.cons_append,
      List.append_assoc] at h
    cases h with
    | step _ h =>
      cases h with
      | expr ht => cases ht
      | list h =>
        obtain rfl := elements_commas h
        exact ⟨_, h, rfl, rfl⟩
    | infixed h | compare h => cases h
  | hash first more =>
    rw [Link.lexemes_of_dotted rfl, Link.undotted, List.cons_append, List.cons_append,
      List.append_assoc] at h
    cases h with
    | step _ h =>
      cases h with
      | expr ht => cases ht
      | hash h =>
        obtain rfl := pairs_commas h
        exact ⟨_, h, rfl, rfl⟩
    | infixed h | compare h => cases h
  | index i =>
    change Extension (Reads n) left
      (.symbol .leftBracket :: .number i :: .symbol .rightBracket :: ts) e rest at h
    cases h with
    | bracket _ h => exact bracketed_index h
    | infixed h | compare h => cases h
  | slice start stop step =>
    rw [Link.lexemes_of_not_dotted rfl, Link.undotted, List.cons_append, List.append_assoc,
      List.singleton_append] at h
    -- What a slice starts with opens no other bracket; its parts need not be told apart.
    have ho := opensIndex_sliceLexemes start stop step (.symbol .rightBracket :: ts)
    generalize hl : sliceLexemes start stop step ++ _ = l at h
    rw [hl] at ho
    cases h with
    | bracket _ h =>
      subst hl
      exact bracketed_slice h
    | items => cases ho
    | infixed h | compare h => cases h
  | items =>
    change Extension (Reads n) left
      (.symbol .leftBracket :: .symbol .star :: .symbol .rightBracket :: ts) e rest at h
    cases h with
    | bracket ho => cases ho
    | items h => exact ⟨_, h, rfl⟩
    | infixed h | compare h => cases h
  | filter p =>
    rw [Link.lexemes_of_not_dotted rfl, Link.undotted, List.cons_append, List.append_assoc,
      List.singleton_append] at h
    cases h with
    | filter h => exact filtered_filter h
    | infixed h | compare h => cases h

/-- At the least power every link extends the tree before it. -/
theorem operators_extends {k : Link}
    (h : Operators (Reads n) 0 left (k.lexemes ++ ts) e rest) :
    ∃ e' mid, k.Extends n left ts e' mid ∧ Operators (Reads n) 0 e' mid e rest := by
  cases h with
  | stop hp =>
    have hk := k.starPower_lt_power
    rw [Link.headPower_lexemes] at hp
    omega
  | more _ h hops => exact ⟨_, _, extension_link h, hops⟩

/-- Where a link without a dot starts an expression, it is applied to the current value. -/
theorem operand_link {k : Link} (hk : k.dotted = false)
    (h : Operand (Reads n) (k.lexemes ++ ts) e rest) : k.Extends n implicit ts e rest := by
  cases k with
  | field | call | values | list | hash => cases hk
  | index i =>
    change Operand (Reads n)
      (.symbol .leftBracket :: .number i :: .symbol .rightBracket :: ts) e rest at h
    cases h with
    | bracket _ h => exact bracketed_index h
    | list ho => cases ho
  | slice start stop step =>
    rw [Link.lexemes_of_not_dotted rfl, Link.undotted, List.cons_append, List.append_assoc,
      List.singleton_append] at h
    have ho := opensIndex_sliceLexemes start stop step (.symbol .rightBracket :: ts)
    generalize hl : sliceLexemes start stop step ++ _ = l at h
    rw [hl] at ho
    cases h with
    | bracket _ h =>
      subst hl
      exact bracketed_slice h
    | items => cases ho
    | list hn => exact absurd ho (by rw [hn]; exact Bool.noConfusion)
  | items =>
    change Operand (Reads n)
      (.symbol .leftBracket :: .symbol .star :: .symbol .rightBracket :: ts) e rest at h
    cases h with
    | bracket ho => cases ho
    | items h => exact ⟨_, h, rfl⟩
    | list _ hi => cases hi
  | filter p =>
    rw [Link.lexemes_of_not_dotted rfl, Link.undotted, List.cons_append, List.append_assoc,
      List.singleton_append] at h
    cases h with
    | filter h => exact filtered_filter h

/-! ### Links at the start of a right side -/

/-- A projection that a link follows does not stop at once. -/
theorem not_stop_link (k : Link) (ts : List Lexeme) :
    ¬ headPower (k.lexemes ++ ts) < projectionStop := by
  rw [Link.headPower_lexemes]
  have := k.starPower_lt_power
  simp only [starPower, projectionStop, Lexeme.power] at *
  omega

/-- A link without a dot starts the right side of a projection, as it starts an expression. -/
theorem projected_not_dotted {least : Nat} {k : Link} (hk : k.dotted = false)
    (h : Projected (Reads n) least (k.lexemes ++ ts) e rest) :
    Reads n least (k.undotted ++ ts) e rest := by
  have hp := not_stop_link k ts
  rw [Link.lexemes_of_not_dotted hk] at h hp
  generalize hl : k.undotted ++ ts = l at h hp
  cases h with
  | stop h => exact absurd h hp
  | bracket h => exact h
  | filter h => exact h
  | dot =>
    cases k with
    | field | call | values | list | hash => cases hk
    | index | slice | items | filter => cases hl

/-- What a link with a dot starts is what is read after the dot. -/
theorem projected_dotted {least : Nat} {k : Link} (hk : k.dotted = true)
    (h : Projected (Reads n) least (k.lexemes ++ ts) e rest) :
    AfterDot (Reads n) least (k.undotted ++ ts) e rest := by
  have hp := not_stop_link k ts
  rw [Link.lexemes_of_dotted hk] at h hp
  cases h with
  | stop h => exact absurd h hp
  | dot h => exact h

/-- A link that selects nothing starts the right side of a projection as it starts an
expression. -/
theorem projected_link {least : Nat} {k : Link} (hk : k.selects = false)
    (h : Projected (Reads n) least (k.lexemes ++ ts) e rest) :
    Reads n least (k.undotted ++ ts) e rest := by
  cases hd : k.dotted with
  | false => exact projected_not_dotted hd h
  | true =>
    have h := projected_dotted hd h
    generalize hl : k.undotted ++ ts = l at h
    cases h with
    | expr _ h => exact h
    | list | hash =>
      cases k with
      | list | hash => cases hk
      | index | slice | items | filter => cases hd
      | field key => exact absurd (List.cons.inj hl).1 (key.lexeme_ne_symbol _)
      | call | values => cases (List.cons.inj hl).1

/-- A selection is all of the right side that it starts. -/
theorem projected_list {least : Nat} {first : Phrase} {more : List Phrase}
    (h : Projected (Reads n) least ((Link.list first more).lexemes ++ ts) e rest) :
    ∃ es, Elements (Reads n)
        (commas first.lexemes (more.map Phrase.lexemes) ++ .symbol .rightBracket :: ts) es rest ∧
      rest = ts ∧ e = .list es 0 := by
  have h := projected_dotted rfl h
  rw [Link.undotted, List.cons_append, List.append_assoc] at h
  cases h with
  | expr ht => cases ht
  | list h =>
    obtain rfl := elements_commas h
    exact ⟨_, h, rfl, rfl⟩

theorem projected_hash {least : Nat} {first : Key × Phrase} {more : List (Key × Phrase)}
    (h : Projected (Reads n) least ((Link.hash first more).lexemes ++ ts) e rest) :
    ∃ ps, Pairs (Reads n)
        (commas (pairLexemes first) (more.map pairLexemes) ++ .symbol .rightBrace :: ts) ps rest ∧
      rest = ts ∧ e = .hash ps 0 := by
  have h := projected_dotted rfl h
  rw [Link.undotted, List.cons_append, List.append_assoc] at h
  cases h with
  | expr ht => cases ht
  | hash h =>
    obtain rfl := pairs_commas h
    exact ⟨_, h, rfl, rfl⟩

/-! ### Chains at the start of an expression -/

/-- A name at the start of an expression is its operand. -/
theorem reads_key {least : Nat} {key : Key} (h : Reads (n + 1) least (key.lexeme :: ts) e rest) :
    Operators (Reads n) least (.atom (.field key.name) 0) ts e rest := by
  obtain ⟨left, mid, ho, h⟩ := h
  obtain ⟨name, quoted⟩ := key
  cases quoted with
  | false =>
    change Operand _ (.identifier name :: ts) left mid at ho
    cases ho
    exact h
  | true =>
    change Operand _ (.quotedIdentifier name :: ts) left mid at ho
    cases ho
    exact h

/-- The power of the parenthesis of a call, which is above all powers asked for. -/
def callPower : Nat := Lexeme.power (.symbol .leftParen)

/-- Where a link that selects nothing starts an expression, it gives the operand. -/
theorem reads_link {least : Nat} {k : Link} (hl : least < callPower) (hk : k.selects = false)
    (h : Reads (n + 1) least (k.undotted ++ ts) e rest) :
    ∃ left mid, k.Opens n ts left mid ∧ Operators (Reads n) least left mid e rest := by
  cases k with
  | list | hash => cases hk
  | field key => exact ⟨_, ts, ⟨rfl, rfl⟩, reads_key h⟩
  | call name args =>
    have h : Reads (n + 1) least (Key.lexeme ⟨name, false⟩ ::
        .symbol .leftParen :: (Link.argLexemes args ++ [.symbol .rightParen] ++ ts)) e rest := h
    have h := reads_key h
    rw [List.append_assoc, List.singleton_append] at h
    cases h with
    | stop hp => exact absurd hl (Nat.not_lt_of_le hp)
    | more _ h hops =>
      cases h with
      | infixed h | compare h => cases h
      | call h =>
        obtain rfl := arguments_commas h
        exact ⟨_, _, ⟨_, h, rfl, rfl⟩, hops⟩
  | values =>
    obtain ⟨left, mid, ho, h⟩ := h
    change Operand _ (.symbol .star :: ts) left mid at ho
    cases ho with
    | values hp => exact ⟨_, mid, ⟨_, hp, rfl⟩, h⟩
  | index | slice | items | filter =>
    obtain ⟨left, mid, ho, h⟩ := h
    rw [← Link.lexemes_of_not_dotted rfl] at ho
    exact ⟨left, mid, operand_link rfl ho, h⟩

end

end JsonQuery
