/-
Where tokens stand does not matter to the parser.

The parser only looks at what tokens say.  Their offsets are copied into the nodes of a tree or
into an error, so when tokens are moved, trees and errors move along.

* `Token.move`, `Expr.move`, `ParseError.move` — tokens, trees and errors at other offsets;
* `Grammar.expression_move` — the parser of expressions commutes with moving tokens;
* `Expr.ofTokens_offset` — every node of a tree stands at a token or at their end;
* `Tokens.ofTokens_alike` — tokens that say the same give the same tree, or the same error at the
  same token.
-/
import JsonQuery.Proofs.Grammar.Fault

namespace JsonQuery

/-! ### Moving -/

section
variable (f : Nat → Nat)

/-- A token at another offset. -/
def Token.move (t : Token) : Token :=
  ⟨t.lexeme, f t.offset⟩

/-- An error at another offset. -/
def ParseError.move (e : ParseError) : ParseError :=
  { e with offset := f e.offset }

namespace Expr

mutual

/-- A tree with each node at another offset. -/
def move : Expr → Expr
  | .atom a o => .atom a (f o)
  | .unary op a o => .unary op (move a) (f o)
  | .binary op a b o => .binary op (move a) (move b) (f o)
  | .filter a p b o => .filter (move a) (move p) (move b) (f o)
  | .list as o => .list (moveList as) (f o)
  | .hash ps o => .hash (movePairs ps) (f o)
  | .call name as o => .call name (moveList as) (f o)

/-- Trees with each node at another offset. -/
def moveList : List Expr → List Expr
  | [] => []
  | a :: as => move a :: moveList as

/-- Keyed trees with each node at another offset. -/
def movePairs : List (Text × Expr) → List (Text × Expr)
  | [] => []
  | (k, a) :: ps => (k, move a) :: movePairs ps

end

mutual

theorem bare_move : ∀ e : Expr, (e.move f).bare = e.bare
  | .atom .. => by simp only [move, bare]
  | .unary _ a _ => by simp only [move, bare, bare_move a]
  | .binary _ a b _ => by simp only [move, bare, bare_move a, bare_move b]
  | .filter a p b _ => by simp only [move, bare, bare_move a, bare_move p, bare_move b]
  | .list as _ => by simp only [move, bare, bareList_move as]
  | .hash ps _ => by simp only [move, bare, barePairs_move ps]
  | .call _ as _ => by simp only [move, bare, bareList_move as]

theorem bareList_move : ∀ as : List Expr, bareList (moveList f as) = bareList as
  | [] => by simp only [moveList]
  | a :: as => by simp only [moveList, bareList, bare_move a, bareList_move as]

theorem barePairs_move : ∀ ps : List (Text × Expr), barePairs (movePairs f ps) = barePairs ps
  | [] => by simp only [movePairs]
  | (_, a) :: ps => by simp only [movePairs, barePairs, bare_move a, barePairs_move ps]

end

theorem offset_move (e : Expr) : (e.move f).offset = f e.offset := by
  cases e <;> rfl

mutual

/-- The nodes of a moved tree are its nodes, moved. -/
theorem walk_move : ∀ e : Expr, (e.move f).walk = e.walk.map (move f)
  | .atom .. => rfl
  | .unary _ a _ => by simp [move, walk, walk_move a]
  | .binary _ a b _ => by simp [move, walk, walk_move a, walk_move b]
  | .filter a p b _ => by simp [move, walk, walk_move a, walk_move p, walk_move b]
  | .list as _ => by simp [move, walk, walkList_move as]
  | .hash ps _ => by simp [move, walk, walkPairs_move ps]
  | .call _ as _ => by simp [move, walk, walkList_move as]

theorem walkList_move : ∀ as : List Expr, walkList (moveList f as) = (walkList as).map (move f)
  | [] => rfl
  | a :: as => by simp [moveList, walkList, walk_move a, walkList_move as]

theorem walkPairs_move :
    ∀ ps : List (Text × Expr), walkPairs (movePairs f ps) = (walkPairs ps).map (move f)
  | [] => rfl
  | (_, a) :: ps => by simp [movePairs, walkPairs, walk_move a, walkPairs_move ps]

end

end Expr

end

namespace Grammar

open JsonQuery.Parser

section
variable (f : Nat → Nat)

/-- Tokens at other offsets. -/
def moveAll (ts : List Token) : List Token :=
  ts.map (Token.move f)

theorem lexemes_moveAll (ts : List Token) : lexemes (moveAll f ts) = lexemes ts := by
  rw [lexemes, lexemes, moveAll, List.map_map]
  rfl

/-- A result or an error, moved. -/
def onMoved {α β : Type} (g : α → β) : Except ParseError α → Except ParseError β
  | .ok a => .ok (g a)
  | .error e => .error (e.move f)

/-- A result of a step, moved with the tokens after it. -/
def withRest {α β : Type} (g : α → β) (x : α × List Token) : β × List Token :=
  (g x.1, moveAll f x.2)

/-- Two steps give the same but for where the tokens stand that they are given. -/
def Commutes {α β : Type} (g : α → β) (p : Step α) (p' : Step β) : Prop :=
  ∀ ts, p' (moveAll f ts) = onMoved f (withRest f g) (p ts)

end

variable {f : Nat → Nat} {stop : Nat}

section
variable {α β γ δ : Type}

theorem bind_move {x : Except ParseError α} {y : Except ParseError β} {g : α → β}
    {k : α → Except ParseError γ} {k' : β → Except ParseError δ} {g' : γ → δ}
    (hx : y = onMoved f g x) (hk : ∀ a, k' (g a) = onMoved f g' (k a)) :
    y >>= k' = onMoved f g' (x >>= k) := by
  subst hx
  cases x with
  | error => rfl
  | ok a => exact hk a

theorem map_move {x : Except ParseError α} {y : Except ParseError β} {g : α → β} {k : α → γ}
    {k' : β → δ} {g' : γ → δ} (hx : y = onMoved f g x) (hk : ∀ a, k' (g a) = g' (k a)) :
    y.map k' = onMoved f g' (x.map k) := by
  subst hx
  cases x with
  | error => rfl
  | ok a => exact congrArg Except.ok (hk a)

theorem refuse_move {problem : ParseProblem} {context : Text} (g : α → β) (ts : List Token) :
    refuse (f stop) problem context (moveAll f ts) =
      onMoved f g (refuse stop problem context ts) := by
  cases ts <;> rfl

end

theorem power_moveAll (ts : List Token) : power (moveAll f ts) = power ts := by
  rw [power_eq, power_eq, lexemes_moveAll]

theorem place_moveAll (ts : List Token) : place (f stop) (moveAll f ts) = f (place stop ts) := by
  cases ts <;> rfl

theorem startsWithColon_moveAll (ts : List Token) :
    startsWithColon (moveAll f ts) = startsWithColon ts := by
  rw [startsWithColon_eq, startsWithColon_eq, lexemes_moveAll]

theorem startsBracket_moveAll (ts : List Token) :
    startsBracket (moveAll f ts) = startsBracket ts := by
  rw [startsBracket_eq, startsBracket_eq, lexemes_moveAll]

theorem startsWithComparator_moveAll (ts : List Token) :
    startsWithComparator (moveAll f ts) = startsWithComparator ts := by
  rw [startsWithComparator_eq, startsWithComparator_eq, lexemes_moveAll]

theorem isIdentity_move (e : Expr) : isIdentity (e.move f) = isIdentity e := by
  rw [← Expr.isIdentity_bare, Expr.bare_move, Expr.isIdentity_bare]

/-- Moved tokens start with a lexeme only if they did before. -/
theorem moveAll_eq_cons {ts r : List Token} {l : Lexeme} {o : Nat}
    (h : moveAll f ts = ⟨l, o⟩ :: r) : ∃ o' r', ts = ⟨l, o'⟩ :: r' := by
  cases ts with
  | nil => cases h
  | cons t ts =>
    cases h
    exact ⟨t.offset, ts, rfl⟩

/-! ### Steps -/

theorem expect_move {s : Symbol} {context : Text} (ts : List Token) :
    expect (f stop) s context (moveAll f ts) =
      onMoved f (moveAll f) (expect stop s context ts) := by
  rcases ts with _ | ⟨⟨l, o⟩, ts⟩
  · rfl
  · cases l with
    | symbol s' =>
      by_cases hs : s' = s
      · simp [expect, moveAll, Token.move, hs, onMoved]
      · simp [expect, moveAll, Token.move, hs]
        rfl
    | _ => rfl

theorem sliceParts_move {i : Nat} {s : Slice} (ts : List Token) :
    sliceParts (f stop) i s (moveAll f ts) =
      onMoved f (withRest f id) (sliceParts stop i s ts) := by
  induction ts generalizing i s with
  | nil => rfl
  | cons t ts ih =>
    obtain ⟨l, o⟩ := t
    change sliceParts (f stop) i s (⟨l, f o⟩ :: moveAll f ts) = _
    rw [sliceParts, sliceParts]
    dsimp only
    split
    · rfl
    · split
      · rfl
      · exact ih
    · split
      · rfl
      · exact ih
    · rfl

theorem bracket_move : Commutes f id (bracket stop) (bracket (f stop)) := by
  intro ts
  have hslice :
      ((sliceParts (f stop) 0 ⟨none, none, none⟩ (moveAll f ts)).map fun p =>
        (Atom.slice p.1, p.2)) =
      onMoved f (withRest f id) ((sliceParts stop 0 ⟨none, none, none⟩ ts).map fun p =>
        (Atom.slice p.1, p.2)) :=
    map_move (sliceParts_move ts) fun _ => rfl
  rcases ts with _ | ⟨⟨l, o⟩, ts⟩
  · exact hslice
  · cases l with
    | number i =>
      change bracket (f stop) (⟨.number i, f o⟩ :: moveAll f ts) = _
      unfold bracket
      dsimp only
      rw [startsWithColon_moveAll]
      split
      · exact hslice
      · exact map_move (expect_move ts) fun _ => rfl
    | _ => exact hslice

section
variable {bound : Nat} {sub sub' : Nat → Step Expr}
  (hA : ∀ least, Commutes f (Expr.move f) (sub least) (sub' least))
include hA

theorem elements_move (fuel : Nat) :
    Commutes f (Expr.moveList f) (elements stop sub fuel) (elements (f stop) sub' fuel) := by
  induction fuel with
  | zero => exact refuse_move _
  | succ fuel ih =>
    intro ts
    unfold elements
    -- A closing bracket is refused here, and moved tokens start with one only if they did before.
    split
    · next h =>
      obtain ⟨o, r, rfl⟩ := moveAll_eq_cons h
      exact refuse_move _ _
    · next h =>
      split
      · exact (h _ _ rfl).elim
      · refine bind_move (hA 0 ts) ?_
        rintro ⟨e, rest⟩
        rcases rest with _ | ⟨⟨l, o⟩, rest⟩
        · rfl
        · cases l with
          | symbol s =>
            cases s with
            | rightBracket => rfl
            | comma => exact bind_move (ih rest) fun _ => rfl
            | _ => rfl
          | _ => rfl

theorem multiList_move (o : Nat) :
    Commutes f (Expr.move f) (multiList stop bound sub o) (multiList (f stop) bound sub' (f o)) :=
  fun ts => bind_move (elements_move hA bound ts) fun _ => rfl

theorem pair_move :
    Commutes f (Prod.map id (Expr.move f)) (pair stop sub) (pair (f stop) sub') := by
  rintro (_ | ⟨⟨l, o⟩, ts⟩)
  · rfl
  · change pair (f stop) sub' (⟨l, f o⟩ :: moveAll f ts) = _
    rw [pair, pair]
    dsimp only
    split
    · rfl
    · exact bind_move (expect_move ts) fun mid => bind_move (hA 0 mid) fun _ => rfl

theorem pairs_move (fuel : Nat) :
    Commutes f (Expr.movePairs f) (pairs stop sub fuel) (pairs (f stop) sub' fuel) := by
  induction fuel with
  | zero => exact refuse_move _
  | succ fuel ih =>
    intro ts
    rw [pairs, pairs]
    refine bind_move (pair_move hA ts) ?_
    rintro ⟨p, rest⟩
    rcases rest with _ | ⟨⟨l, o⟩, rest⟩
    · rfl
    · cases l with
      | symbol s =>
        cases s with
        | rightBrace => rfl
        | comma => exact bind_move (ih rest) fun _ => rfl
        | _ => rfl
      | _ => rfl

theorem multiHash_move (o : Nat) :
    Commutes f (Expr.move f) (multiHash stop bound sub o) (multiHash (f stop) bound sub' (f o)) :=
  fun ts => bind_move (pairs_move hA bound ts) fun _ => rfl

theorem arguments_move {name : Text} (fuel : Nat) :
    Commutes f (Expr.moveList f) (arguments stop sub name fuel)
      (arguments (f stop) sub' name fuel) := by
  induction fuel with
  | zero => exact refuse_move _
  | succ fuel ih =>
    intro ts
    unfold arguments
    split
    · next h =>
      obtain ⟨o, r, rfl⟩ := moveAll_eq_cons h
      cases h
      rfl
    · next h =>
      obtain rfl : ts = [] := List.map_eq_nil_iff.mp h
      rfl
    · next h1 h2 =>
      split
      · exact (h1 _ _ rfl).elim
      · exact (h2 rfl).elim
      · refine bind_move (hA 0 ts) ?_
        rintro ⟨e, rest⟩
        rcases rest with _ | ⟨⟨l, o⟩, rest⟩
        · rfl
        · cases l with
          | symbol s =>
            cases s with
            | rightParen => rfl
            | comma =>
              -- Another argument follows, unless the call is closed behind the comma.
              have hmore : ∀ rest,
                  (arguments (f stop) sub' name fuel (moveAll f rest) >>= fun x =>
                    .ok (e.move f :: x.1, x.2)) =
                  onMoved f (withRest f (Expr.moveList f))
                    (arguments stop sub name fuel rest >>= fun x => .ok (e :: x.1, x.2)) :=
                fun rest => bind_move (ih rest) fun _ => rfl
              rcases rest with _ | ⟨⟨l', o'⟩, rest⟩
              · exact hmore []
              · cases l' with
                | symbol s' =>
                  cases s' with
                  | rightParen => rfl
                  | _ => exact hmore (⟨_, o'⟩ :: rest)
                | _ => exact hmore (⟨_, o'⟩ :: rest)
            | _ => rfl
          | _ => rfl

theorem afterDot_move (least : Nat) :
    Commutes f (Expr.move f) (afterDot stop bound sub least)
      (afterDot (f stop) bound sub' least) := by
  rintro (_ | ⟨⟨l, o⟩, ts⟩)
  · rfl
  · cases l with
    | identifier | quotedIdentifier => exact hA least _
    | symbol s =>
      cases s with
      | star => exact hA least _
      | leftBracket => exact multiList_move hA o ts
      | leftBrace => exact multiHash_move hA o ts
      | _ => rfl
    | _ => rfl

theorem projected_move (least : Nat) :
    Commutes f (Expr.move f) (projected stop bound sub least)
      (projected (f stop) bound sub' least) := by
  intro ts
  unfold projected
  rw [power_moveAll]
  split
  · rw [place_moveAll]
    rfl
  · rcases ts with _ | ⟨⟨l, o⟩, ts⟩
    · rfl
    · cases l with
      | symbol s =>
        cases s with
        | leftBracket | filter => exact hA least _
        | dot => exact afterDot_move hA least ts
        | _ => rfl
      | _ => rfl

theorem bracketed_move (left : Expr) (o : Nat) :
    Commutes f (Expr.move f) (bracketed stop bound sub left o)
      (bracketed (f stop) bound sub' (left.move f) (f o)) := by
  intro ts
  refine bind_move (bracket_move ts) ?_
  rintro ⟨a, mid⟩
  dsimp only [withRest, id]
  rw [isIdentity_move]
  have hindexed : (if isIdentity left then Expr.atom a (f o)
      else .binary .step (left.move f) (.atom a (f o)) (f o)) =
      (if isIdentity left then Expr.atom a o else .binary .step left (.atom a o) o).move f := by
    split <;> rfl
  rw [hindexed]
  cases a with
  | slice => exact bind_move (projected_move hA starPower mid) fun _ => rfl
  | _ => rfl

theorem filtered_move (left : Expr) (o : Nat) :
    Commutes f (Expr.move f) (filtered stop bound sub left o)
      (filtered (f stop) bound sub' (left.move f) (f o)) := by
  intro ts
  refine bind_move (hA 0 ts) ?_
  rintro ⟨p, mid⟩
  refine bind_move (expect_move mid) ?_
  rintro (_ | ⟨⟨l, o'⟩, mid⟩)
  · exact bind_move (projected_move hA _ []) fun _ => rfl
  · cases l with
    | symbol s =>
      cases s with
      | flatten => rfl
      | _ => exact bind_move (projected_move hA _ (⟨_, o'⟩ :: mid)) fun _ => rfl
    | _ => exact bind_move (projected_move hA _ (⟨_, o'⟩ :: mid)) fun _ => rfl

theorem flattened_move (left : Expr) (o : Nat) :
    Commutes f (Expr.move f) (flattened stop bound sub left o)
      (flattened (f stop) bound sub' (left.move f) (f o)) :=
  fun ts => bind_move (projected_move hA _ ts) fun _ => rfl

/-- What starts with a bracket is an index, a slice, a projection or a list. -/
theorem leftBracket_move (o : Nat) (ts : List Token) :
    operand (f stop) bound sub' (moveAll f (⟨.symbol .leftBracket, o⟩ :: ts)) =
      onMoved f (withRest f (Expr.move f))
        (operand stop bound sub (⟨.symbol .leftBracket, o⟩ :: ts)) := by
  change (if startsBracket (moveAll f ts) = true then _ else _) =
    onMoved f _ (if startsBracket ts = true then _ else _)
  rw [startsBracket_moveAll]
  split
  · exact bracketed_move hA (.atom .identity o) o ts
  · rcases ts with _ | ⟨⟨l, o'⟩, ts⟩
    · exact multiList_move hA o []
    · cases l with
      | symbol s =>
        cases s with
        | star =>
          rcases ts with _ | ⟨⟨l, o''⟩, ts⟩
          · exact multiList_move hA o [⟨_, o'⟩]
          · cases l with
            | symbol s =>
              cases s with
              | rightBracket => exact bind_move (projected_move hA starPower ts) fun _ => rfl
              | _ => exact multiList_move hA o (⟨_, o'⟩ :: ⟨_, o''⟩ :: ts)
            | _ => exact multiList_move hA o (⟨_, o'⟩ :: ⟨_, o''⟩ :: ts)
        | _ => exact multiList_move hA o (⟨_, o'⟩ :: ts)
      | _ => exact multiList_move hA o (⟨_, o'⟩ :: ts)

theorem operand_move :
    Commutes f (Expr.move f) (operand stop bound sub) (operand (f stop) bound sub') := by
  rintro (_ | ⟨⟨l, o⟩, ts⟩)
  · rfl
  · cases l with
    | identifier | rawString | literal => rfl
    | quotedIdentifier name =>
      rcases ts with _ | ⟨⟨l, o'⟩, ts⟩
      · rfl
      · cases l with
        | symbol s => cases s <;> rfl
        | _ => rfl
    | number => rfl
    | symbol s =>
      cases s with
      | current => rfl
      | star =>
        rcases ts with _ | ⟨⟨l, o'⟩, ts⟩
        · exact bind_move (projected_move hA starPower []) fun _ => rfl
        · cases l with
          | symbol s =>
            cases s with
            | rightBracket => rfl
            | _ => exact bind_move (projected_move hA starPower (⟨_, o'⟩ :: ts)) fun _ => rfl
          | _ => exact bind_move (projected_move hA starPower (⟨_, o'⟩ :: ts)) fun _ => rfl
      | filter => exact filtered_move hA (.atom .identity o) o ts
      | flatten => exact flattened_move hA (.atom .identity o) o ts
      | not => exact bind_move (hA _ ts) fun _ => rfl
      | leftParen =>
        exact bind_move (hA 0 ts) fun ⟨e, mid⟩ => bind_move (expect_move mid) fun _ => rfl
      | leftBrace => exact multiHash_move hA o ts
      | ampersand => exact bind_move (hA 0 ts) fun _ => rfl
      | leftBracket => exact leftBracket_move hA o ts
      | _ => rfl

theorem infixed_move (op : BinaryOp) (least : Nat) (left : Expr) (o : Nat) :
    Commutes f (Expr.move f) (infixed sub op least left o)
      (infixed sub' op least (left.move f) (f o)) :=
  fun ts => bind_move (hA least ts) fun _ => rfl

theorem compared_move (c : Comparator) (least : Nat) (left : Expr) (o : Nat) :
    Commutes f (Expr.move f) (compared stop sub c least left o)
      (compared (f stop) sub' c least (left.move f) (f o)) := by
  intro ts
  refine bind_move (hA least ts) ?_
  rintro ⟨right, mid⟩
  dsimp only [withRest]
  rw [startsWithComparator_moveAll]
  split
  · exact refuse_move _ _
  · rfl

theorem extend_move (left : Expr) (t : Token) :
    Commutes f (Expr.move f) (extend stop bound sub left t)
      (extend (f stop) bound sub' (left.move f) (t.move f)) := by
  intro ts
  obtain ⟨l, o⟩ := t
  cases l with
  | symbol s =>
    cases s with
    | dot =>
      rcases ts with _ | ⟨⟨l, o'⟩, ts⟩
      · rfl
      · cases l with
        | symbol s =>
          cases s with
          | star => exact bind_move (projected_move hA _ ts) fun _ => rfl
          | _ => exact bind_move (afterDot_move hA _ (⟨_, o'⟩ :: ts)) fun _ => rfl
        | _ => exact bind_move (afterDot_move hA _ (⟨_, o'⟩ :: ts)) fun _ => rfl
    | leftBracket =>
      change (if startsBracket (moveAll f ts) = true then _ else _) =
        onMoved f _ (if startsBracket ts = true then _ else _)
      rw [startsBracket_moveAll]
      split
      · exact bracketed_move hA left o ts
      · refine bind_move (expect_move ts) fun mid => ?_
        refine bind_move (expect_move mid) fun mid => ?_
        exact bind_move (projected_move hA starPower mid) fun _ => rfl
    | filter => exact filtered_move hA left o ts
    | flatten => exact flattened_move hA left o ts
    | pipe | or | and => exact infixed_move hA _ _ left o ts
    | leftParen =>
      cases left with
      | atom a o' =>
        cases a with
        | field name => exact bind_move (arguments_move hA bound ts) fun _ => rfl
        | _ => rfl
      | _ => rfl
    | eq | ne | lt | le | gt | ge => exact compared_move hA _ _ left o ts
    | _ => rfl
  | _ => rfl

theorem operators_move (least fuel : Nat) (left : Expr) :
    Commutes f (Expr.move f) (operators stop bound sub least fuel left)
      (operators (f stop) bound sub' least fuel (left.move f)) := by
  induction fuel generalizing left with
  | zero => exact fun _ => rfl
  | succ fuel ih =>
    rintro (_ | ⟨t, ts⟩)
    · rfl
    · change operators (f stop) bound sub' least (fuel + 1) (left.move f)
        (t.move f :: moveAll f ts) = _
      rw [operators, operators]
      change (if least < t.lexeme.power then _ else _) = _
      split
      · refine bind_move (extend_move hA left t ts) ?_
        rintro ⟨left', mid⟩
        exact ih left' mid
      · rfl

end

/-- The parser of expressions commutes with moving tokens. -/
theorem expression_move (bound n least : Nat) :
    Commutes f (Expr.move f) (expression stop bound n least)
      (expression (f stop) bound n least) := by
  induction n generalizing least with
  | zero =>
    rintro (_ | _)
    · rfl
    · rfl
  | succ n ih =>
    intro ts
    exact bind_move (operand_move ih ts) fun ⟨left, mid⟩ => operators_move ih least bound left mid

end Grammar

open Grammar

/-- The expression of some tokens, or their error, moves along with them. -/
theorem ofTokens_move (f : Nat → Nat) (tokens : Tokens) :
    Expr.ofTokens ⟨moveAll f tokens.items, f tokens.stop⟩ =
      onMoved f (Expr.move f) (Expr.ofTokens tokens) := by
  have hlen : (moveAll f tokens.items).length = tokens.items.length := List.length_map _
  unfold Expr.ofTokens
  rw [hlen]
  refine bind_move (expression_move _ nestingLimit 0 tokens.items) ?_
  rintro ⟨e, rest⟩
  rcases rest with _ | ⟨⟨l, o⟩, rest⟩
  · rfl
  · cases l with
    | symbol s => cases s <;> rfl
    | _ => rfl

/-- Every node of a tree has the offset of a token, or of the end of the tokens. -/
theorem Expr.ofTokens_offset {tokens : Tokens} {e n : Expr} (h : ofTokens tokens = .ok e)
    (hn : n ∈ e.walk) : n.offset = tokens.stop ∨ ∃ t ∈ tokens.items, n.offset = t.offset := by
  classical
  -- Moving all other offsets to the end leaves the tokens where they are, and so the tree.
  let f := fun o => if ∃ t ∈ tokens.items, o = t.offset then o else tokens.stop
  have hitems : moveAll f tokens.items = tokens.items := by
    have hstay : ∀ t ∈ tokens.items, t.move f = t := by
      intro t ht
      rw [Token.move, show f t.offset = t.offset from if_pos ⟨t, ht, rfl⟩]
    rw [moveAll, List.map_congr_left hstay, List.map_id']
  have hstop : f tokens.stop = tokens.stop := ite_self _
  have hmove := ofTokens_move f tokens
  rw [hitems, hstop, h] at hmove
  have he : e = e.move f := Except.ok.inj hmove
  rw [he, walk_move] at hn
  obtain ⟨m, -, rfl⟩ := List.mem_map.mp hn
  rw [offset_move]
  by_cases hm : ∃ t ∈ tokens.items, m.offset = t.offset
  · right
    rwa [show f m.offset = m.offset from if_pos hm]
  · left
    exact if_neg hm

/-! ### Tokens by their numbers -/

namespace Tokens

/-- Some lexemes as tokens, each at its number. -/
def numbered (ls : List Lexeme) : Tokens :=
  ⟨ls.zipIdx.map fun x => ⟨x.1, x.2⟩, ls.length⟩

theorem length_numbered (ls : List Lexeme) : (numbered ls).items.length = ls.length := by
  rw [numbered, List.length_map, List.length_zipIdx]

theorem numbered_place {ls : List Lexeme} {i : Nat} (h : i ≤ ls.length) :
    (numbered ls).place i = i := by
  rcases Nat.lt_or_eq_of_le h with h | rfl
  · have hi : i < (numbered ls).items.length := by rwa [length_numbered]
    rw [place_eq hi]
    simp [numbered]
  · have := place_length (numbered ls)
    rwa [length_numbered] at this

/-- Tokens are those at their numbers, moved to their places. -/
theorem eq_numbered (tokens : Tokens) :
    tokens = ⟨moveAll tokens.place (numbered (lexemes tokens.items)).items,
      tokens.place (numbered (lexemes tokens.items)).stop⟩ := by
  obtain ⟨items, stop⟩ := tokens
  congr 1
  · refine List.ext_getElem (by simp [moveAll, numbered, lexemes]) ?_
    intro i h _
    have hp : (Tokens.mk items stop).place i = items[i].offset := place_eq h
    simp [moveAll, Token.move, numbered, lexemes, hp]
  · have hl : (numbered (lexemes items)).stop = items.length := List.length_map _
    rw [hl]
    exact (place_length ⟨items, stop⟩).symm

/-- Tokens that say the same give the same tree up to offsets, or the same error at the same
token. -/
theorem ofTokens_alike {tokens tokens' : Tokens}
    (h : lexemes tokens'.items = lexemes tokens.items) :
    match Expr.ofTokens tokens, Expr.ofTokens tokens' with
    | .ok e, .ok e' => e.bare = e'.bare
    | .error err, .error err' => err.problem = err'.problem ∧ err.found = err'.found ∧
        err.context = err'.context ∧ ∃ i ≤ tokens.items.length,
          err.offset = tokens.place i ∧ err'.offset = tokens'.place i
    | _, _ => False := by
  -- Both are the numbered tokens, moved to the places of the one and of the other.
  have h1 := ofTokens_move tokens.place (numbered (lexemes tokens.items))
  have h2 := ofTokens_move tokens'.place (numbered (lexemes tokens'.items))
  rw [← eq_numbered] at h1 h2
  rw [h1, h2, h]
  cases hn : Expr.ofTokens (numbered (lexemes tokens.items)) with
  | ok e => exact (Expr.bare_move _ e).trans (Expr.bare_move _ e).symm
  | error err =>
    refine ⟨rfl, rfl, rfl, err.offset, ?_, rfl, rfl⟩
    -- The error is told at one of the tokens or at their end, so its offset is a number.
    obtain ⟨u, r, hur, hp, -⟩ := ofTokens_blames hn
    have hlen : (lexemes tokens.items).length = tokens.items.length := List.length_map _
    have hu : u.length ≤ (lexemes tokens.items).length := by
      rw [← length_numbered, hur, List.length_append]
      exact Nat.le_add_right _ _
    rw [hp.offset, ← place_append hur, numbered_place hu, ← hlen]
    exact hu

end Tokens
end JsonQuery
