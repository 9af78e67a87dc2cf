/-
How sequences of infix operators are parsed.

The loop over operators goes through a part of a sequence whenever nothing in it is looser than the
place asks for, and is left with the tree of that part before whatever follows.  Where a
comparison follows another, the loop is left with an error.

* `operators_run` — the loop over a part of a sequence;
* `operators_fail` — the same where a comparison follows the last one;
* `parse_infix` — what sources that spell a sequence are parsed to.
-/
import JsonQuery.Proofs.Grammar.Suffix
import JsonQuery.Proofs.Infix

namespace JsonQuery

open Grammar JsonQuery.Parser

/-- The tokens of some operators fall into parts just as the operators do. -/
theorem exists_jointTokens {ts : List Token} (before : List (Joint × Term)) {j : Joint}
    {t : Term} {after : List (Joint × Term)}
    (h : lexemes ts = jointLexemes (before ++ (j, t) :: after)) :
    ∃ u o w v, ts = u ++ ⟨.symbol j.symbol, o⟩ :: (w ++ v) ∧ lexemes u = jointLexemes before ∧
      lexemes w = t.lexemes ∧ lexemes v = jointLexemes after := by
  rw [jointLexemes_append] at h
  obtain ⟨u, ts', rfl, hu, h'⟩ := List.map_eq_append_iff.mp h
  obtain ⟨o, ts, rfl, hts⟩ := lexemes_eq_cons.mp h'
  obtain ⟨w, v, rfl, hw, hv⟩ := List.map_eq_append_iff.mp hts
  exact ⟨u, o, w, v, rfl, hu, hw, hv⟩

theorem startsWithComparator_joint (j : Joint) (o : Nat) (ts : List Token) :
    startsWithComparator (⟨.symbol j.symbol, o⟩ :: ts) = j.compares := by
  cases j with
  | compare c => cases c <;> rfl
  | _ => rfl

/-- No operator binds more tightly than a comparison. -/
theorem headPower_joints {v tail : List Token} {rest : List (Joint × Term)}
    (hv : lexemes v = jointLexemes rest) (h : headPower (lexemes tail) ≤ 5) :
    headPower (lexemes (v ++ tail)) ≤ 5 := by
  rw [lexemes_append, hv]
  cases rest with
  | nil => exact h
  | cons x rest => exact x.1.power_le

section
variable (stop : Nat) {bound k n least : Nat}

/-- An operand is parsed to its tree, whatever follows it. -/
theorem operand_term {t : Term} {w tail : List Token} (h : t.Fits k) (hk : k ≤ n)
    (hw : lexemes w = t.lexemes) (htail : headPower (lexemes tail) ≤ 5)
    (hb : (w ++ tail).length ≤ bound) :
    ∃ e, e.bare = t.tree ∧
      Parser.operand stop bound (expression stop bound n) (w ++ tail) = .ok (e, tail) := by
  have hr := operand_mono (fun _ _ _ _ => reads_mono hk) (h.operand htail)
  rw [← hw, ← lexemes_append] at hr
  obtain ⟨e, rest, he, hv, hl, -⟩ :=
    operand_complete stop (complete_expression stop bound n) hb hr
  have hlen : rest.length = tail.length := by simpa [lexemes] using congrArg List.length hl
  have hs := leaves_operand (leaves_expression bound n) he
  -- What is left is an end of the tokens, just as `tail` is one.
  have hs' := List.suffix_of_suffix_length_le hs (List.suffix_append w tail) (Nat.le_of_eq hlen)
  obtain rfl := hs'.eq_of_length hlen
  exact ⟨e, hv, he⟩

/-- So an expression that starts with an operand goes on with the operators after it. -/
theorem expression_term (least : Nat) {t : Term} {w tail : List Token} (h : t.Fits k) (hk : k ≤ n)
    (hw : lexemes w = t.lexemes) (htail : headPower (lexemes tail) ≤ 5)
    (hb : (w ++ tail).length ≤ bound) :
    ∃ e, e.bare = t.tree ∧ expression stop bound (n + 1) least (w ++ tail) =
      operators stop bound (expression stop bound n) least bound e tail := by
  obtain ⟨e, hv, he⟩ := operand_term stop h hk hw htail hb
  refine ⟨e, hv, ?_⟩
  rw [expression, he]
  rfl

theorem operators_stop {sub : Nat → Step Expr} {fuel : Nat} {left : Expr} {ts : List Token}
    (h : headPower (lexemes ts) ≤ least) :
    operators stop bound sub least fuel left ts = .ok (left, ts) := by
  cases fuel with
  | zero => rfl
  | succ fuel =>
    cases ts with
    | nil => rfl
    | cons t ts => exact if_neg (Nat.not_lt_of_le h)

/-- A turn of the loop at an operator that does not compare: what is tighter than the operator
belongs to its right side, and is gone through one level further down. -/
theorem operators_joint (fuel o : Nat) (left : Expr) {j : Joint} {t : Term} {w tail : List Token}
    (ht : t.Fits k) (hk : k ≤ n) (hj : j.compares = false) (hp : least < j.power)
    (hw : lexemes w = t.lexemes) (htail : headPower (lexemes tail) ≤ 5)
    (hb : (w ++ tail).length ≤ bound) :
    ∃ right, right.bare = t.tree ∧
      operators stop bound (expression stop bound (n + 1)) least (fuel + 1) left
          (⟨.symbol j.symbol, o⟩ :: (w ++ tail)) =
        operators stop bound (expression stop bound n) j.power bound right tail >>=
          fun (right, rest) => operators stop bound (expression stop bound (n + 1)) least fuel
            (.binary j.op left right o) rest := by
  obtain ⟨right, hr, he⟩ := expression_term stop j.power ht hk hw htail hb
  have hx : extend stop bound (expression stop bound (n + 1)) left ⟨.symbol j.symbol, o⟩
      (w ++ tail) = infixed (expression stop bound (n + 1)) j.op j.power left o (w ++ tail) := by
    cases j with
    | compare => cases hj
    | _ => rfl
  refine ⟨right, hr, ?_⟩
  rw [operators, if_pos (by exact hp), hx, infixed, he]
  cases operators stop bound (expression stop bound n) j.power bound right tail <;> rfl

/-- A turn of the loop at a comparison, whose right side is an operand. -/
theorem operators_compare (fuel o : Nat) (left : Expr) {c : Comparator} {t : Term}
    {w tail : List Token} (ht : t.Fits k) (hk : k ≤ n) (hp : least < (Joint.compare c).power)
    (hw : lexemes w = t.lexemes) (htail : headPower (lexemes tail) ≤ 5)
    (hb : (w ++ tail).length ≤ bound) :
    ∃ right, right.bare = t.tree ∧
      operators stop bound (expression stop bound (n + 1)) least (fuel + 1) left
          (⟨.symbol (Joint.compare c).symbol, o⟩ :: (w ++ tail)) =
        if startsWithComparator tail then
          refuse stop .unexpectedToken "comparisons cannot be chained, use parentheses" tail
        else
          operators stop bound (expression stop bound (n + 1)) least fuel
            (.binary (.compare c) left right o) tail := by
  obtain ⟨right, hr, he⟩ := expression_term stop 5 ht hk hw htail hb
  have hx : extend stop bound (expression stop bound (n + 1)) left
      ⟨.symbol (Joint.compare c).symbol, o⟩ (w ++ tail) =
        compared stop (expression stop bound (n + 1)) c 5 left o (w ++ tail) := by
    cases c <;> rfl
  refine ⟨right, hr, ?_⟩
  rw [operators, if_pos (by exact hp), hx, compared, he, operators_stop stop htail]
  dsimp only [bind, Except.bind]
  cases startsWithComparator tail <;> rfl

/-- What the loop needs to go through some operators. -/
structure Fitting (k n least : Nat) (rest : List (Joint × Term)) : Prop where
  least_le : least ≤ 3
  levels : k + (4 - least) ≤ n
  fits : ∀ x ∈ rest, x.2.Fits k
  power : ∀ x ∈ rest, least < x.1.power

section
variable {before after : List (Joint × Term)} {j : Joint} {t : Term}

theorem Fitting.left (h : Fitting k n least (before ++ (j, t) :: after)) :
    Fitting k n least before :=
  ⟨h.least_le, h.levels, fun x hx => h.fits x (List.mem_append_left _ hx),
    fun x hx => h.power x (List.mem_append_left _ hx)⟩

theorem Fitting.middle (h : Fitting k n least (before ++ (j, t) :: after)) :
    t.Fits k ∧ least < j.power :=
  have hm : (j, t) ∈ before ++ (j, t) :: after := List.mem_append_right _ List.mem_cons_self
  ⟨h.fits _ hm, h.power _ hm⟩

/-- The operators that bind more tightly are gone through one level further down. -/
theorem Fitting.right (h : Fitting k (n + 1) least (before ++ (j, t) :: after))
    (hj : j.compares = false) (ha : ∀ x ∈ after, j.rank < x.1.rank) :
    Fitting k n j.power after := by
  have hp := h.middle.2
  have hj := Joint.power_le_three.mpr hj
  have hl := h.levels
  refine ⟨hj, by omega, fun x hx => h.fits x ?_, fun x hx => Joint.power_lt_power.mpr (ha x hx)⟩
  exact List.mem_append_right _ (List.mem_cons_of_mem _ hx)

theorem Fitting.exists_level {rest : List (Joint × Term)} (h : Fitting k n least rest) :
    ∃ m, n = m + 1 ∧ k ≤ m := by
  have h1 := h.least_le
  have h2 := h.levels
  exact ⟨n - 1, by omega, by omega⟩

end

/-- The loop goes through a part of a sequence to its tree, if what follows is no tighter. -/
theorem operators_run {first : Term} {rest : List (Joint × Term)} {b : Expr}
    (h : Reference first rest b) (hf : Fitting k n least rest) {left : Expr}
    (hleft : left.bare = first.tree) {ts tail : List Token} (hts : lexemes ts = jointLexemes rest)
    (htail : ∀ x ∈ rest, headPower (lexemes tail) ≤ x.1.power)
    (hc : startsWithComparator tail = false) {fuel : Nat} (hb : (ts ++ tail).length ≤ bound)
    (hfuel : (ts ++ tail).length ≤ fuel) :
    ∃ e fuel', e.bare = b ∧ tail.length ≤ fuel' ∧
      operators stop bound (expression stop bound n) least fuel left (ts ++ tail) =
        operators stop bound (expression stop bound n) least fuel' e tail := by
  induction h generalizing n least left ts tail fuel with
  | operand first =>
    obtain rfl : ts = [] := List.map_eq_nil_iff.mp hts
    exact ⟨left, fuel, hleft, hfuel, rfl⟩
  | compare first c t =>
    obtain ⟨u, o, w, v, rfl, hu, hw, hv⟩ := exists_jointTokens [] hts
    obtain rfl : u = [] := List.map_eq_nil_iff.mp hu
    obtain rfl : v = [] := List.map_eq_nil_iff.mp hv
    obtain ⟨m, rfl, hkm⟩ := hf.exists_level
    have ht := hf.fits _ List.mem_cons_self
    have hp := hf.power _ List.mem_cons_self
    have hpow : headPower (lexemes tail) ≤ 5 := by
      rw [← Joint.power_compare c]
      exact htail _ List.mem_cons_self
    rw [List.nil_append, List.append_nil, List.cons_append] at hb hfuel ⊢
    rw [List.length_cons] at hb hfuel
    cases fuel with
    | zero => cases hfuel
    | succ fuel =>
      obtain ⟨right, hr, hx⟩ :=
        operators_compare stop fuel o left ht hkm hp hw hpow (Nat.le_of_succ_le hb)
      rw [hc] at hx
      refine ⟨.binary (.compare c) left right o, fuel, ?_, ?_, hx⟩
      · rw [Expr.bare, hleft, hr]
      · rw [List.length_append] at hfuel
        omega
  | @split first before j t after l r hj hbefore hafter _ _ ihl ihr =>
    obtain ⟨u, o, w, v, rfl, hu, hw, hv⟩ := exists_jointTokens before hts
    obtain ⟨m, rfl, hkm⟩ := hf.exists_level
    obtain ⟨ht, hp⟩ := hf.middle
    have htail' : ∀ x ∈ after, headPower (lexemes tail) ≤ x.1.power := fun x hx =>
      htail x (List.mem_append_right _ (List.mem_cons_of_mem _ hx))
    have htail'' : headPower (lexemes tail) ≤ j.power :=
      htail _ (List.mem_append_right _ List.mem_cons_self)
    rw [List.append_assoc, List.cons_append, List.append_assoc] at hb hfuel ⊢
    -- The operators before `j` end before it, since none of them is looser.
    have hn := (startsWithComparator_joint j o (w ++ (v ++ tail))).trans hj
    have hbefore : ∀ x ∈ before,
        headPower (lexemes (⟨.symbol j.symbol, o⟩ :: (w ++ (v ++ tail)))) ≤ x.1.power := fun x hx =>
      Joint.power_le_power.mpr (hbefore x hx)
    obtain ⟨e, fuel', he, hfuel', hx⟩ := ihl hf.left hleft hu hbefore hn hb hfuel
    rw [hx]
    rw [List.length_append, List.length_cons] at hb
    rw [List.length_cons] at hfuel'
    cases fuel' with
    | zero => cases hfuel'
    | succ fuel' =>
      -- The operators after `j` are tighter, so they all belong to its right side.
      have hb' : (w ++ (v ++ tail)).length ≤ bound := by omega
      obtain ⟨right, hr, hx⟩ := operators_joint stop fuel' o e ht hkm hj hp hw
        (headPower_joints hv (Nat.le_trans htail'' j.power_le)) hb'
      rw [List.length_append] at hb' hfuel'
      have hb'' : (v ++ tail).length ≤ bound := by omega
      obtain ⟨r', fuel'', hr', -, hx'⟩ := ihr (hf.right hj hafter) hr hv htail' hc hb'' hb''
      rw [hx', operators_stop stop htail''] at hx
      refine ⟨.binary j.op e r' o, fuel', ?_, ?_, hx⟩
      · rw [Expr.bare, he, hr']
      · rw [List.length_append] at hfuel'
        omega

/-- Where a comparison follows the last operator, which is one too, the loop fails there. -/
theorem operators_fail {first : Term} {rest : List (Joint × Term)} {b : Expr}
    (h : Reference first rest b) (hf : Fitting k n least rest) {left : Expr}
    (hleft : left.bare = first.tree) {ts tail : List Token} (hts : lexemes ts = jointLexemes rest)
    {x : Joint × Term} (hx : rest.getLast? = some x) (hxc : x.1.compares = true)
    (hc : startsWithComparator tail = true) {fuel : Nat} (hb : (ts ++ tail).length ≤ bound)
    (hfuel : (ts ++ tail).length ≤ fuel) :
    operators stop bound (expression stop bound n) least fuel left (ts ++ tail) =
      refuse stop .unexpectedToken "comparisons cannot be chained, use parentheses" tail := by
  have hpow : headPower (lexemes tail) = 5 := by
    match tail, hc with
    | ⟨.symbol s, _⟩ :: _, hc => cases s <;> first | rfl | cases hc
  induction h generalizing n least left ts fuel with
  | operand => cases hx
  | compare first c t =>
    obtain ⟨u, o, w, v, rfl, hu, hw, hv⟩ := exists_jointTokens [] hts
    obtain rfl : u = [] := List.map_eq_nil_iff.mp hu
    obtain rfl : v = [] := List.map_eq_nil_iff.mp hv
    obtain ⟨m, rfl, hkm⟩ := hf.exists_level
    have ht := hf.fits _ List.mem_cons_self
    have hp := hf.power _ List.mem_cons_self
    rw [List.nil_append, List.append_nil, List.cons_append] at hb hfuel ⊢
    rw [List.length_cons] at hb hfuel
    cases fuel with
    | zero => cases hfuel
    | succ fuel =>
      obtain ⟨right, -, hx⟩ :=
        operators_compare stop fuel o left ht hkm hp hw (Nat.le_of_eq hpow) (Nat.le_of_succ_le hb)
      rw [hx, hc]
      rfl
  | @split first before j t after l r hj hbefore hafter hl _ _ ihr =>
    obtain ⟨u, o, w, v, rfl, hu, hw, hv⟩ := exists_jointTokens before hts
    obtain ⟨m, rfl, hkm⟩ := hf.exists_level
    obtain ⟨ht, hp⟩ := hf.middle
    rw [List.append_assoc, List.cons_append, List.append_assoc] at hb hfuel ⊢
    have hn := (startsWithComparator_joint j o (w ++ (v ++ tail))).trans hj
    have hbefore : ∀ x ∈ before,
        headPower (lexemes (⟨.symbol j.symbol, o⟩ :: (w ++ (v ++ tail)))) ≤ x.1.power := fun x hx =>
      Joint.power_le_power.mpr (hbefore x hx)
    obtain ⟨e, fuel', he, hfuel', hrun⟩ :=
      operators_run stop hl hf.left hleft hu hbefore hn hb hfuel
    rw [hrun]
    rw [List.length_append, List.length_cons] at hb
    rw [List.length_cons] at hfuel'
    cases fuel' with
    | zero => cases hfuel'
    | succ fuel' =>
      have hb' : (w ++ (v ++ tail)).length ≤ bound := by omega
      obtain ⟨right, hr, hturn⟩ := operators_joint stop fuel' o e ht hkm hj hp hw
        (headPower_joints hv (Nat.le_of_eq hpow)) hb'
      -- The last operator is one of those after `j`, since `j` does not compare.
      have hlast : after.getLast? = some x := by
        rw [List.getLast?_append, List.getLast?_cons] at hx
        cases ha : after.getLast? with
        | some y => simpa [ha] using hx
        | none =>
          rw [ha] at hx
          cases hx
          exact absurd (hj.symm.trans hxc) Bool.noConfusion
      rw [List.length_append] at hb'
      have hb'' : (v ++ tail).length ≤ bound := by omega
      rw [ihr (hf.right hj hafter) hr hv hlast hb'' hb''] at hturn
      exact hturn

end

/-! ### Sources -/

section
variable {source : Text} {first : Term} {rest : List (Joint × Term)}

/-- The tokens of a sequence are parsed as the loop goes on after the first operand. -/
theorem expression_sequence {tokens : Tokens} (h : lexemes tokens.items = sequence first rest)
    (hf : first.Fits (nestingLimit - 5)) :
    ∃ e v, e.bare = first.tree ∧ lexemes v = jointLexemes rest ∧
      v.length ≤ tokens.items.length ∧ (∃ u, tokens.items = u ++ v ∧ lexemes u = first.lexemes) ∧
      expression tokens.stop tokens.items.length nestingLimit 0 tokens.items =
        operators tokens.stop tokens.items.length
          (expression tokens.stop tokens.items.length (nestingLimit - 1)) 0 tokens.items.length
          e v := by
  obtain ⟨w, v, hi, hw, hv⟩ := List.map_eq_append_iff.mp h
  have hpow : headPower (lexemes v) ≤ 5 := by
    rw [← List.append_nil v]
    exact headPower_joints hv (Nat.zero_le 5)
  obtain ⟨e, he, hx⟩ := expression_term tokens.stop 0 hf (by decide : _ ≤ nestingLimit - 1) hw hpow
    (Nat.le_of_eq (congrArg List.length hi.symm))
  rw [← hi] at hx
  refine ⟨e, v, he, hv, ?_, ⟨w, hi, hw⟩, hx⟩
  rw [hi, List.length_append]
  exact Nat.le_add_left _ _

theorem fitting_sequence (hr : ∀ x ∈ rest, x.2.Fits (nestingLimit - 5)) :
    Fitting (nestingLimit - 5) (nestingLimit - 1) 0 rest :=
  ⟨by decide, by decide, hr, fun x _ => x.1.power_pos⟩

/-- A sequence with a tree is parsed to it. -/
theorem parse_reference (hs : Spells source (sequence first rest))
    (hf : first.Fits (nestingLimit - 5)) (hr : ∀ x ∈ rest, x.2.Fits (nestingLimit - 5)) {b : Expr}
    (h : Reference first rest b) : ∃ e, Expr.parse source = .ok e ∧ e.bare = b := by
  obtain ⟨tokens, ht, hl⟩ := hs
  obtain ⟨e, v, he, hv, hlen, -, hx⟩ := expression_sequence hl hf
  rw [← List.append_nil v] at hlen
  have nothing : ∀ x ∈ rest, headPower (lexemes []) ≤ x.1.power := fun _ _ => Nat.zero_le _
  obtain ⟨e', fuel, he', -, hrun⟩ := operators_run tokens.stop h (fitting_sequence hr) he hv
    nothing rfl hlen hlen
  rw [List.append_nil] at hrun
  rw [hrun, operators_stop tokens.stop (Nat.zero_le _)] at hx
  refine ⟨e', ?_, he'⟩
  rw [← parses_iff]
  exact ⟨tokens, ht, hx⟩

/-- Where a comparison follows another, the source is refused at the later one. -/
theorem parse_unseparated (hs : Spells source (sequence first rest))
    (hf : first.Fits (nestingLimit - 5)) (hr : ∀ x ∈ rest, x.2.Fits (nestingLimit - 5))
    {before after : List (Joint × Term)} {c c' : Comparator} {t t' : Term}
    (hrest : rest = before ++ (.compare c, t) :: (.compare c', t') :: after)
    (hsep : Separated (before ++ [(.compare c, t)])) :
    ∃ tokens u, ∃ o : Nat, ∃ v, Tokens.ofSource source = .ok tokens ∧
      tokens.items = u ++ ⟨.symbol (Joint.compare c').symbol, o⟩ :: v ∧
      lexemes u = sequence first (before ++ [(.compare c, t)]) ∧
      Expr.parse source = .error (.query
        ⟨.parse .unexpectedToken (Lexeme.symbol (Joint.compare c').symbol).describe
          "comparisons cannot be chained, use parentheses", o, some source⟩) := by
  obtain ⟨tokens, ht, hl⟩ := hs
  obtain ⟨e, v, he, hv, hlen, ⟨w, hi, hw⟩, hx⟩ := expression_sequence hl hf
  rw [List.append_cons] at hrest
  subst hrest
  obtain ⟨u, o, w', v', rfl, hu, -, -⟩ := exists_jointTokens _ hv
  obtain ⟨b, hb⟩ := exists_reference first hsep
  have hc := startsWithComparator_joint (.compare c') o (w' ++ v')
  have hfit : Fitting (nestingLimit - 5) (nestingLimit - 1) 0 (before ++ [(.compare c, t)]) :=
    fitting_sequence fun x hx => hr x (List.mem_append_left _ hx)
  have hfail := operators_fail tokens.stop hb hfit he hu List.getLast?_concat rfl hc
    hlen hlen
  refine ⟨tokens, w ++ u, o, w' ++ v', mapError_eq_ok.mp ht, ?_, ?_, ?_⟩
  · rw [hi, List.append_assoc]
  · rw [lexemes_append, hw, hu]
    rfl
  · rw [hfail] at hx
    rw [Expr.parse, ht]
    dsimp only [bind, Except.bind]
    rw [Expr.ofTokens, hx]
    rfl

end

/-- A source that spells a sequence of infix operators is an expression if and only if its
comparisons are separated.  Then its tree is the reference one; otherwise the first comparison
that follows another is unexpected.  The operands leave four levels of nesting to the operators
around them. -/
theorem parse_infix {source : Text} {first : Term} {rest : List (Joint × Term)}
    (hs : Spells source (sequence first rest)) (hf : first.Fits (nestingLimit - 5))
    (hr : ∀ x ∈ rest, x.2.Fits (nestingLimit - 5)) :
    ((∃ e, Expr.parse source = .ok e) ↔ Separated rest) ∧
      (∀ e, Expr.parse source = .ok e → ∀ b, Reference first rest b ↔ b = e.bare) ∧
      (¬ Separated rest → ∃ before c t c' t' after,
        rest = before ++ (.compare c, t) :: (.compare c', t') :: after ∧
        Separated (before ++ [(.compare c, t)]) ∧
        ∃ tokens u, ∃ o : Nat, ∃ v, Tokens.ofSource source = .ok tokens ∧
          tokens.items = u ++ ⟨.symbol (Joint.compare c').symbol, o⟩ :: v ∧
          lexemes u = sequence first (before ++ [(.compare c, t)]) ∧
          Expr.parse source = .error (.query
            ⟨.parse .unexpectedToken (Lexeme.symbol (Joint.compare c').symbol).describe
              "comparisons cannot be chained, use parentheses", o, some source⟩)) := by
  have accepted : (∃ e, Expr.parse source = .ok e) ↔ Separated rest := by
    constructor
    · rintro ⟨e, he⟩
      refine Classical.byContradiction fun h => ?_
      obtain ⟨before, c, t, c', t', after, hrest, hsep⟩ := exists_unseparated h
      obtain ⟨_, _, _, _, -, -, -, herr⟩ := parse_unseparated hs hf hr hrest hsep
      rw [he] at herr
      cases herr
    · intro h
      obtain ⟨b, hb⟩ := exists_reference first h
      obtain ⟨e, he, -⟩ := parse_reference hs hf hr hb
      exact ⟨e, he⟩
  refine ⟨accepted, ?_, ?_⟩
  · intro e he b
    -- Whatever tree the sequence has is the one that the source is parsed to.
    have unique {b : Expr} (hb : Reference first rest b) : b = e.bare := by
      obtain ⟨e', he', rfl⟩ := parse_reference hs hf hr hb
      rw [he] at he'
      cases he'
      rfl
    constructor
    · exact unique
    · rintro rfl
      obtain ⟨b, hb⟩ := exists_reference first (accepted.mp ⟨e, he⟩)
      rwa [← unique hb]
  · intro h
    obtain ⟨before, c, t, c', t', after, hrest, hsep⟩ := exists_unseparated h
    exact ⟨before, c, t, c', t', after, hrest, hsep, parse_unseparated hs hf hr hrest hsep⟩

/-- In `a == b && !c < d` the comparisons are separated, and it is split at `&&`. -/
theorem parse_two_comparisons :
    let first : Term := .name ⟨"a", false⟩
    let rest : List (Joint × Term) := [(.compare .eq, .name ⟨"b", false⟩),
      (.and, .not (.name ⟨"c", false⟩)), (.compare .lt, .name ⟨"d", false⟩)]
    Spells "a == b && !c < d" (sequence first rest) ∧ Separated rest ∧
      Reference first rest
        (.binary .and
          (.binary (.compare .eq) (.atom (.field "a") 0) (.atom (.field "b") 0) 0)
          (.binary (.compare .lt) (.unary .not (.atom (.field "c") 0) 0)
            (.atom (.field "d") 0) 0) 0) := by
  intro first rest
  have hs : Spells "a == b && !c < d" (sequence first rest) := ⟨_, rfl, rfl⟩
  have hr : ∀ x ∈ rest, x.2.Fits (nestingLimit - 5) := by
    simp [rest, Term.Fits, nestingLimit, stackFrames, hostFrames, takenFrames]
  obtain ⟨accepted, tree, -⟩ := parse_infix hs trivial hr
  exact ⟨hs, accepted.mp ⟨_, rfl⟩, (tree _ rfl _).mpr rfl⟩

end JsonQuery
