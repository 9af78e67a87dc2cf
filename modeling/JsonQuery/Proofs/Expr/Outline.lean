/-
Trees told by their outlines.

The line of a node tells its kind and what it carries.  The lines of the trees below it are told by
their indentation: behind a tree stands no line that is further in than its root, so the lists of
children end where they should, and a tree is read from its lines whatever stands behind them.

* `Expr.headLine_inj` — the line of a node tells its name and what it carries;
* `Expr.SameHead` — trees that agree in all but what stands below their roots;
* `Expr.NoDeeper` — lines that do not go on with a tree;
* `Expr.same_of_lines` — a tree is told by its lines;
* `Expr.oneLine_lines` — each of which is a single line;
* `outline_identifies_iff` — equal outlines are of equal trees, from the level minus one on;
* `outline_alike_not_equal` — trees with one outline that are not found equal.
-/
import JsonQuery.Expr.Outline
import JsonQuery.Proofs.Comparison
import JsonQuery.Proofs.Json.OneLine
import JsonQuery.Proofs.Text.Quoted

namespace JsonQuery

open Text

/-! ### Bounds, symbols and names -/

/-- What stands in front of the first occurrence of a code point is told by the whole. -/
theorem Text.append_inj_of_not_mem {c : CodePoint} {s t u v : Text} (hs : c ∉ s) (ht : c ∉ t)
    (hu : ∀ d ∈ u.head?, d = c) (hv : ∀ d ∈ v.head?, d = c) (h : s ++ u = t ++ v) :
    s = t ∧ u = v := by
  have hstop {x y : Text} (hx : c ∉ x) (hy : ∀ d ∈ y.head?, d = c) :
      (x ++ y).takeWhile (· != c) = x := by
    have hpos : ∀ d ∈ x, (d != c) = true := fun d hd => bne_iff_ne.mpr fun hc => hx (hc ▸ hd)
    rw [List.takeWhile_append_of_pos hpos]
    cases y with
    | nil => rw [List.takeWhile_nil, List.append_nil]
    | cons d y =>
      rw [List.takeWhile_cons_of_neg (by simp [hy d rfl]), List.append_nil]
  have hst : s = t := by rw [← hstop hs hu, h, hstop ht hv]
  subst hst
  exact ⟨rfl, List.append_cancel_left h⟩

theorem Text.ofString_injective {s t : String} (h : ofString s = ofString t) : s = t := by
  have hread := congrArg toString? h
  rw [toString?_ofString, toString?_ofString] at hread
  exact Option.some.inj hread

theorem NumeralText.colon_not_mem {t : Text} (h : NumeralText t) : CodePoint.scalar ':' ∉ t :=
  fun hmem => absurd (h _ hmem) (by decide)

theorem Comparator.symbol_injective {c d : Comparator} (h : c.symbol = d.symbol) : c = d := by
  revert h
  cases c <;> cases d <;> decide

theorem boundText_injective {x y : Option Int} (h : boundText x = boundText y) : x = y := by
  -- The word for a missing bound starts with a letter, and no integer does.
  have hnone (i : Int) : boundText (some i) ≠ boundText none := by
    intro hi
    have hi' : Text.ofInt i = ofString "None" := hi
    have := NumeralText.ofInt i
    rw [hi'] at this
    revert this
    decide
  cases x with
  | none =>
    cases y with
    | none => rfl
    | some j => exact absurd h.symm (hnone j)
  | some i =>
    cases y with
    | none => exact absurd h (hnone i)
    | some j => rw [ofInt_injective h]

theorem colon_not_mem_boundText (x : Option Int) : CodePoint.scalar ':' ∉ boundText x := by
  cases x with
  | none => decide
  | some i => exact (NumeralText.ofInt i).colon_not_mem

theorem oneLine_boundText (x : Option Int) : (boundText x).OneLine := by
  cases x with
  | none => decide
  | some i => exact (NumeralText.ofInt i).oneLine

namespace Expr

/-! ### The line of a node -/

theorem nodeName_ne_nil (e : Expr) : ofString e.nodeName ≠ [] := by
  unfold nodeName
  split <;> decide

theorem space_not_mem_nodeName (e : Expr) : CodePoint.scalar ' ' ∉ ofString e.nodeName := by
  unfold nodeName
  split <;> decide

theorem oneLine_nodeName (e : Expr) : (ofString e.nodeName).OneLine := by
  unfold nodeName
  split <;> decide

theorem head?_detail (e : Expr) : ∀ d ∈ e.detail.head?, d = CodePoint.scalar ' ' := by
  unfold detail
  split <;> rintro d ⟨⟩ <;> rfl

/-- The line of a node tells its name and what it carries. -/
theorem headLine_inj {level : Int} {a b : Expr} (h : headLine level a = headLine level b) :
    a.nodeName = b.nodeName ∧ a.detail = b.detail := by
  rw [headLine, headLine, List.append_assoc, List.append_assoc] at h
  obtain ⟨hname, hdetail⟩ := append_inj_of_not_mem a.space_not_mem_nodeName
    b.space_not_mem_nodeName a.head?_detail b.head?_detail (List.append_cancel_left h)
  exact ⟨ofString_injective hname, hdetail⟩

/-- Trees whose roots have one name. -/
inductive Namesake : Expr → Expr → Prop
  | identity {o o'} : Namesake (.atom .identity o) (.atom .identity o')
  | current {o o'} : Namesake (.atom .current o) (.atom .current o')
  | field {s t o o'} : Namesake (.atom (.field s) o) (.atom (.field t) o')
  | index {i j o o'} : Namesake (.atom (.index i) o) (.atom (.index j) o')
  | slice {s t o o'} : Namesake (.atom (.slice s) o) (.atom (.slice t) o')
  | literal {j k o o'} : Namesake (.atom (.literal j) o) (.atom (.literal k) o')
  | unary {op a b o o'} : Namesake (.unary op a o) (.unary op b o')
  | binary {op a a' b b' o o'} : Namesake (.binary op a b o) (.binary op a' b' o')
  | compare {c d a a' b b' o o'} :
    Namesake (.binary (.compare c) a b o) (.binary (.compare d) a' b' o')
  | filter {a a' p p' b b' o o'} : Namesake (.filter a p b o) (.filter a' p' b' o')
  | list {as bs o o'} : Namesake (.list as o) (.list bs o')
  | hash {ps qs o o'} : Namesake (.hash ps o) (.hash qs o')
  | call {f g as bs o o'} : Namesake (.call f as o) (.call g bs o')

theorem namesake_of_nodeName_eq {a b : Expr} (h : a.nodeName = b.nodeName) : Namesake a b := by
  -- Names of different kinds are different words, so only nodes of one kind are left.
  unfold nodeName at h
  split at h <;> split at h <;> first | (simp at h; done) | constructor

/-- Trees that agree in all but what stands below their roots. -/
inductive SameHead : Expr → Expr → Prop
  | atom {a b o o'} : a.same b = true → SameHead (.atom a o) (.atom b o')
  | unary {op a b o o'} : SameHead (.unary op a o) (.unary op b o')
  | binary {op a a' b b' o o'} : SameHead (.binary op a b o) (.binary op a' b' o')
  | filter {a a' p p' b b' o o'} : SameHead (.filter a p b o) (.filter a' p' b' o')
  | list {as bs o o'} : SameHead (.list as o) (.list bs o')
  | hash {ps qs o o'} : SameHead (.hash ps o) (.hash qs o')
  | call {f as bs o o'} : SameHead (.call f as o) (.call f bs o')

theorem slice_eq_of_detail_eq {s t : Slice} {o o' : Nat}
    (h : (Expr.atom (.slice s) o).detail = (Expr.atom (.slice t) o').detail) : s = t := by
  have hcolon (u : Slice) : ∀ x ∈ [boundText u.start, boundText u.stop, boundText u.step],
      CodePoint.scalar ':' ∉ x := by
    simp [colon_not_mem_boundText]
  have hjoin (u : Slice) (p : Nat) : (Expr.atom (.slice u) p).detail = .scalar ' ' ::
      List.intercalate [.scalar ':'] [boundText u.start, boundText u.stop, boundText u.step] := by
    simp [detail, List.intercalate, ofString, ofChars]
  rw [hjoin, hjoin] at h
  have hbounds := intercalate_injective (List.cons_ne_nil _ _) (List.cons_ne_nil _ _) (hcolon s)
    (hcolon t) (List.cons.inj h).2
  simp only [List.cons.injEq, and_true] at hbounds
  obtain ⟨hstart, hstop, hstep⟩ := hbounds
  cases s
  cases t
  rw [Slice.mk.injEq]
  exact ⟨boundText_injective hstart, boundText_injective hstop, boundText_injective hstep⟩

/-- Roots with one name that carry the same are the same. -/
theorem Namesake.sameHead {a b : Expr} (h : Namesake a b) (hdetail : a.detail = b.detail)
    (ha : a.DistinctLiterals) (hb : b.DistinctLiterals) : SameHead a b := by
  cases h with
  | identity => exact .atom rfl
  | current => exact .atom rfl
  | field =>
    have hname := quoted_injective (List.append_cancel_left hdetail)
    exact .atom (beq_iff_eq.mpr hname)
  | index =>
    have hplace := ofInt_injective (List.append_cancel_left hdetail)
    exact .atom (beq_iff_eq.mpr hplace)
  | slice => exact .atom (beq_iff_eq.mpr (slice_eq_of_detail_eq hdetail))
  | @literal j k =>
    have htext := List.append_cancel_left (List.append_cancel_right hdetail)
    exact .atom (Json.same_of_write_eq (ha.literal j rfl) (hb.literal k rfl) htext)
  | unary => exact .unary
  | binary => exact .binary
  | compare =>
    have hsymbol := ofString_injective (List.append_cancel_left hdetail)
    obtain rfl := Comparator.symbol_injective hsymbol
    exact .binary
  | filter => exact .filter
  | list => exact .list
  | hash => exact .hash
  | call =>
    obtain rfl := List.append_cancel_left (List.append_cancel_right hdetail)
    exact .call

/-- The lines of a tree start with that of its root. -/
theorem exists_lines_eq (level : Int) (e : Expr) :
    ∃ below, lines level e = headLine level e :: below := by
  cases e <;> exact ⟨_, rfl⟩

theorem sameHead_of_lines {level : Int} {a b : Expr} {r s : List Text} (ha : a.DistinctLiterals)
    (hb : b.DistinctLiterals) (h : lines level a ++ r = lines level b ++ s) : SameHead a b := by
  obtain ⟨below, hbelow⟩ := exists_lines_eq level a
  obtain ⟨below', hbelow'⟩ := exists_lines_eq level b
  rw [hbelow, hbelow'] at h
  obtain ⟨hname, hdetail⟩ := headLine_inj (List.cons.inj h).1
  exact (namesake_of_nodeName_eq hname).sameHead hdetail ha hb

/-! ### Indentation -/

/-- The number of the spaces that a line starts with. -/
def indentation (line : Text) : Nat :=
  (line.takeWhile (· == .scalar ' ')).length

theorem indentation_append (n : Nat) {t : Text} (h : ∀ c ∈ t.head?, c ≠ CodePoint.scalar ' ') :
    indentation (List.replicate n (.scalar ' ') ++ t) = n := by
  have hpos : ∀ c ∈ List.replicate n (CodePoint.scalar ' '), (c == .scalar ' ') = true :=
    fun c hc => beq_iff_eq.mpr (List.eq_of_mem_replicate hc)
  rw [indentation, List.takeWhile_append_of_pos hpos, List.length_append, List.length_replicate]
  cases t with
  | nil => rfl
  | cons c t =>
    rw [List.takeWhile_cons_of_neg (by simpa using h c rfl)]
    rfl

theorem indentation_headLine (level : Int) (e : Expr) :
    indentation (headLine level e) = 2 * level.toNat := by
  rw [headLine, List.append_assoc, margin]
  refine indentation_append _ fun c hc => ?_
  rw [List.head?_append_of_ne_nil _ e.nodeName_ne_nil] at hc
  rintro rfl
  exact e.space_not_mem_nodeName (List.mem_of_mem_head? hc)

theorem indentation_keyLine (level : Int) (key : Text) :
    indentation (keyLine level key) = 2 * level.toNat + 2 := by
  have hquote : ∀ c ∈ (key.quoted ++ ofString ":").head?, c ≠ CodePoint.scalar ' ' := by
    rintro c ⟨⟩
    rcases key.isQuoteMark_quoteMark with h | h <;> rw [h] <;> decide
  have hspaces :
      margin level ++ ofString "  " = List.replicate (2 * level.toNat + 2) (.scalar ' ') := by
    rw [← List.replicate_append_replicate]
    rfl
  rw [keyLine, hspaces, List.append_assoc, indentation_append _ hquote]

/-- Lines that start no further in than the roots of trees at a level. -/
def NoDeeper (level : Int) (ls : List Text) : Prop :=
  ∀ line ∈ ls.head?, (indentation line : Int) ≤ 2 * level

section
variable {level : Int} {r : List Text}

theorem noDeeper_nil (level : Int) : NoDeeper level [] :=
  nofun

theorem noDeeper_cons {line : Text} :
    NoDeeper level (line :: r) ↔ (indentation line : Int) ≤ 2 * level := by
  simp [NoDeeper]

theorem NoDeeper.mono {level' : Int} (h : NoDeeper level r) (hle : level ≤ level') :
    NoDeeper level' r :=
  fun line hline => Int.le_trans (h line hline) (by omega)

theorem noDeeper_lines_iff {level' : Int} (e : Expr) :
    NoDeeper level (lines level' e ++ r) ↔ 2 * (level'.toNat : Int) ≤ 2 * level := by
  obtain ⟨below, hbelow⟩ := exists_lines_eq level' e
  rw [hbelow, List.cons_append, noDeeper_cons, indentation_headLine]
  omega

/-- The lines of further trees at a level are no further in. -/
theorem NoDeeper.linesList (h : NoDeeper level r) (hlevel : 0 ≤ level) (as : List Expr) :
    NoDeeper level (linesList level as ++ r) := by
  cases as with
  | nil => exact h
  | cons a as =>
    rw [Expr.linesList, List.append_assoc, noDeeper_lines_iff]
    omega

/-- The lines of further keys of a hash at a level are no further in than the values. -/
theorem NoDeeper.linesPairs (h : NoDeeper level r) (hlevel : -1 ≤ level)
    (ps : List (Text × Expr)) : NoDeeper (level + 2) (linesPairs level ps ++ r) := by
  cases ps with
  | nil => exact h.mono (by omega)
  | cons p ps =>
    rw [Expr.linesPairs, List.cons_append, noDeeper_cons, indentation_keyLine]
    omega

/-- The lines of a tree one level below are further in. -/
theorem not_noDeeper_linesList (hlevel : -1 ≤ level) (a : Expr) (as : List Expr) :
    ¬ NoDeeper level (linesList (level + 1) (a :: as) ++ r) := by
  rw [Expr.linesList, List.append_assoc, noDeeper_lines_iff]
  omega

/-- So are the keys of a hash. -/
theorem not_noDeeper_linesPairs (p : Text × Expr) (ps : List (Text × Expr)) :
    ¬ NoDeeper level (linesPairs level (p :: ps) ++ r) := by
  rw [Expr.linesPairs, List.cons_append, noDeeper_cons, indentation_keyLine]
  omega

end

/-! ### The lines of a tree -/

theorem keyLine_injective {level : Int} {k l : Text} (h : keyLine level k = keyLine level l) :
    k = l := by
  simp only [keyLine] at h
  exact quoted_injective (List.append_cancel_left (List.append_cancel_right h))

-- What stands behind the lines of the two trees is part of the induction: it is what the lines of
-- one child are read in front of, and that both leave the same is what lets the next one be read.
mutual

/-- A tree is told by its lines, whatever stands behind them that does not go on with it. -/
theorem same_of_lines : ∀ (a b : Expr) {level : Int} {r s : List Text}, -1 ≤ level →
    a.DistinctLiterals → b.DistinctLiterals → NoDeeper level r → NoDeeper level s →
    lines level a ++ r = lines level b ++ s → same a b = true ∧ r = s
  | .atom a o, b, level, r, s, hlevel, ha, hb, hr, hs, h => by
    cases sameHead_of_lines ha hb h with | atom hab =>
    exact ⟨hab, (List.cons.inj h).2⟩
  | .unary op a o, b, level, r, s, hlevel, ha, hb, hr, hs, h => by
    cases sameHead_of_lines ha hb h with | unary =>
    obtain ⟨hab, hrest⟩ := same_of_lines a _ (by omega) ha.unary hb.unary (hr.mono (by omega))
      (hs.mono (by omega)) (List.cons.inj h).2
    rw [same, hab, BEq.rfl]
    exact ⟨rfl, hrest⟩
  | .binary op a b o, c, level, r, s, hlevel, ha, hb, hr, hs, h => by
    cases sameHead_of_lines ha hb h with | binary =>
    have hbelow := (List.cons.inj h).2
    rw [List.append_eq, List.append_eq, List.append_assoc, List.append_assoc] at hbelow
    obtain ⟨hleft, hrest⟩ := same_of_lines a _ (by omega) ha.binary.1 hb.binary.1
      ((noDeeper_lines_iff _).mpr (by omega)) ((noDeeper_lines_iff _).mpr (by omega)) hbelow
    obtain ⟨hright, hrest⟩ := same_of_lines b _ (by omega) ha.binary.2 hb.binary.2
      (hr.mono (by omega)) (hs.mono (by omega)) hrest
    rw [same, hleft, hright, BEq.rfl]
    exact ⟨rfl, hrest⟩
  | .filter a p b o, c, level, r, s, hlevel, ha, hb, hr, hs, h => by
    cases sameHead_of_lines ha hb h with | filter =>
    have hbelow := (List.cons.inj h).2
    simp only [List.append_eq, List.append_assoc] at hbelow
    obtain ⟨hleft, hrest⟩ := same_of_lines a _ (by omega) ha.filter.1 hb.filter.1
      ((noDeeper_lines_iff _).mpr (by omega)) ((noDeeper_lines_iff _).mpr (by omega)) hbelow
    obtain ⟨hmiddle, hrest⟩ := same_of_lines p _ (by omega) ha.filter.2.1 hb.filter.2.1
      ((noDeeper_lines_iff _).mpr (by omega)) ((noDeeper_lines_iff _).mpr (by omega)) hrest
    obtain ⟨hright, hrest⟩ := same_of_lines b _ (by omega) ha.filter.2.2 hb.filter.2.2
      (hr.mono (by omega)) (hs.mono (by omega)) hrest
    rw [same, hleft, hmiddle, hright]
    exact ⟨rfl, hrest⟩
  | .list as o, b, level, r, s, hlevel, ha, hb, hr, hs, h => by
    cases sameHead_of_lines ha hb h with | list =>
    exact sameList_of_lines as _ hlevel (fun _ h => ha.child h) (fun _ h => hb.child h) hr hs
      (List.cons.inj h).2
  | .hash ps o, b, level, r, s, hlevel, ha, hb, hr, hs, h => by
    cases sameHead_of_lines ha hb h with | hash =>
    exact samePairs_of_lines ps _ hlevel (fun _ h => ha.child (List.mem_map_of_mem h))
      (fun _ h => hb.child (List.mem_map_of_mem h)) hr hs (List.cons.inj h).2
  | .call f as o, b, level, r, s, hlevel, ha, hb, hr, hs, h => by
    cases sameHead_of_lines ha hb h with | call =>
    rw [same, BEq.rfl, Bool.true_and]
    exact sameList_of_lines as _ hlevel (fun _ h => ha.child h) (fun _ h => hb.child h) hr hs
      (List.cons.inj h).2

theorem sameList_of_lines : ∀ (as bs : List Expr) {level : Int} {r s : List Text}, -1 ≤ level →
    (∀ a ∈ as, a.DistinctLiterals) → (∀ b ∈ bs, b.DistinctLiterals) →
    NoDeeper level r → NoDeeper level s →
    linesList (level + 1) as ++ r = linesList (level + 1) bs ++ s →
    sameList as bs = true ∧ r = s
  | [], [], _, _, _, _, _, _, _, _, h => ⟨rfl, h⟩
  | [], b :: bs, level, r, s, hlevel, _, _, hr, _, h => by
    obtain rfl : r = linesList (level + 1) (b :: bs) ++ s := h
    exact absurd hr (not_noDeeper_linesList hlevel b bs)
  | a :: as, [], level, r, s, hlevel, _, _, _, hs, h => by
    obtain rfl : linesList (level + 1) (a :: as) ++ r = s := h
    exact absurd hs (not_noDeeper_linesList hlevel a as)
  | a :: as, b :: bs, level, r, s, hlevel, ha, hb, hr, hs, h => by
    obtain ⟨ha, has⟩ := List.forall_mem_cons.mp ha
    obtain ⟨hb, hbs⟩ := List.forall_mem_cons.mp hb
    rw [linesList, linesList, List.append_assoc, List.append_assoc] at h
    obtain ⟨hfirst, hrest⟩ := same_of_lines a b (by omega) ha hb
      ((hr.mono (by omega)).linesList (by omega) as)
      ((hs.mono (by omega)).linesList (by omega) bs) h
    obtain ⟨hothers, hrest⟩ := sameList_of_lines as bs hlevel has hbs hr hs hrest
    rw [sameList, hfirst, hothers]
    exact ⟨rfl, hrest⟩

theorem samePairs_of_lines : ∀ (ps qs : List (Text × Expr)) {level : Int} {r s : List Text},
    -1 ≤ level → (∀ p ∈ ps, p.2.DistinctLiterals) → (∀ q ∈ qs, q.2.DistinctLiterals) →
    NoDeeper level r → NoDeeper level s →
    linesPairs level ps ++ r = linesPairs level qs ++ s → samePairs ps qs = true ∧ r = s
  | [], [], _, _, _, _, _, _, _, _, h => ⟨rfl, h⟩
  | [], q :: qs, level, r, s, _, _, _, hr, _, h => by
    obtain rfl : r = linesPairs level (q :: qs) ++ s := h
    exact absurd hr (not_noDeeper_linesPairs q qs)
  | p :: ps, [], level, r, s, _, _, _, _, hs, h => by
    obtain rfl : linesPairs level (p :: ps) ++ r = s := h
    exact absurd hs (not_noDeeper_linesPairs p ps)
  | (k, a) :: ps, (l, b) :: qs, level, r, s, hlevel, ha, hb, hr, hs, h => by
    obtain ⟨ha, hps⟩ := List.forall_mem_cons.mp ha
    obtain ⟨hb, hqs⟩ := List.forall_mem_cons.mp hb
    obtain ⟨hkey, hbelow⟩ := List.cons.inj h
    rw [List.append_eq, List.append_eq, List.append_assoc, List.append_assoc] at hbelow
    obtain ⟨hfirst, hrest⟩ := same_of_lines a b (by omega) ha hb (hr.linesPairs hlevel ps)
      (hs.linesPairs hlevel qs) hbelow
    obtain ⟨hothers, hrest⟩ := samePairs_of_lines ps qs hlevel hps hqs hr hs hrest
    rw [samePairs, keyLine_injective hkey, hfirst, hothers, BEq.rfl]
    exact ⟨rfl, hrest⟩

end

/-! ### Single lines -/

/-- The names of all functions that a tree calls are identifiers. -/
def CallsIdentifiers (e : Expr) : Prop :=
  ∀ f as o, Expr.call f as o ∈ e.walk → f.isIdentifier = true

theorem CallsIdentifiers.child {e c : Expr} (h : e.CallsIdentifiers) (hc : c ∈ e.children) :
    c.CallsIdentifiers :=
  fun f as o hcall => h f as o (walk_subset (mem_walk_of_mem_children e.mem_walk_self hc) hcall)

theorem oneLine_of_isIdentifier {t : Text} (h : t.isIdentifier = true) : t.OneLine := by
  cases t with
  | nil => exact oneLine_nil
  | cons c t =>
    rw [isIdentifier, Bool.and_eq_true, List.all_eq_true] at h
    refine .of_isIdentifierPart (List.forall_mem_cons.mpr ⟨?_, h.2⟩)
    rw [CodePoint.isIdentifierPart, h.1, Bool.true_or]

theorem oneLine_detail {e : Expr} (h : e.CallsIdentifiers) : e.detail.OneLine := by
  cases e with
  | atom a o =>
    cases a with
    | identity | current => exact oneLine_nil
    | field name => exact oneLine_append.mpr ⟨by decide, name.oneLine_quoted⟩
    | index i => exact oneLine_append.mpr ⟨by decide, (NumeralText.ofInt i).oneLine⟩
    | slice s =>
      simp only [detail, oneLine_append, oneLine_boundText, and_true]
      decide
    | literal j =>
      simp only [detail, oneLine_append, Json.oneLine_write, and_true]
      decide
  | binary op a b o =>
    cases op with
    | compare c =>
      rw [detail]
      cases c <;> decide
    | _ => exact oneLine_nil
  | call f as o =>
    have hname := oneLine_of_isIdentifier (h f as o (mem_walk_self _))
    simp only [detail, oneLine_append, hname, and_true]
    decide
  | unary | filter | list | hash => exact oneLine_nil

theorem oneLine_margin (level : Int) : (margin level).OneLine :=
  fun hmem => absurd (List.eq_of_mem_replicate hmem) (by decide)

theorem oneLine_headLine (level : Int) {e : Expr} (h : e.CallsIdentifiers) :
    (headLine level e).OneLine :=
  oneLine_append.mpr
    ⟨oneLine_append.mpr ⟨oneLine_margin level, e.oneLine_nodeName⟩, oneLine_detail h⟩

theorem oneLine_keyLine (level : Int) (key : Text) : (keyLine level key).OneLine := by
  simp only [keyLine, oneLine_append, oneLine_margin, oneLine_quoted, true_and, and_true]
  decide

mutual

/-- No line of a tree holds a line feed. -/
theorem oneLine_lines : ∀ (e : Expr) (level : Int), e.CallsIdentifiers →
    ∀ line ∈ lines level e, line.OneLine
  | .atom a o, level, h => List.forall_mem_singleton.mpr (oneLine_headLine level h)
  | .unary op a o, level, h => by
    have ha := oneLine_lines a (level + 1) (h.child (by simp [children]))
    exact List.forall_mem_cons.mpr ⟨oneLine_headLine level h, ha⟩
  | .binary op a b o, level, h => by
    have ha := oneLine_lines a (level + 1) (h.child (by simp [children]))
    have hb := oneLine_lines b (level + 1) (h.child (by simp [children]))
    exact List.forall_mem_cons.mpr ⟨oneLine_headLine level h, List.forall_mem_append.mpr ⟨ha, hb⟩⟩
  | .filter a p b o, level, h => by
    have ha := oneLine_lines a (level + 1) (h.child (by simp [children]))
    have hp := oneLine_lines p (level + 1) (h.child (by simp [children]))
    have hb := oneLine_lines b (level + 1) (h.child (by simp [children]))
    exact List.forall_mem_cons.mpr ⟨oneLine_headLine level h,
      List.forall_mem_append.mpr ⟨List.forall_mem_append.mpr ⟨ha, hp⟩, hb⟩⟩
  | .list as o, level, h => by
    have has := oneLine_linesList as (level + 1) fun _ ha => h.child ha
    exact List.forall_mem_cons.mpr ⟨oneLine_headLine level h, has⟩
  | .hash ps o, level, h => by
    have hps := oneLine_linesPairs ps level fun _ hp => h.child (List.mem_map_of_mem hp)
    exact List.forall_mem_cons.mpr ⟨oneLine_headLine level h, hps⟩
  | .call f as o, level, h => by
    have has := oneLine_linesList as (level + 1) fun _ ha => h.child ha
    exact List.forall_mem_cons.mpr ⟨oneLine_headLine level h, has⟩

theorem oneLine_linesList : ∀ (as : List Expr) (level : Int), (∀ a ∈ as, a.CallsIdentifiers) →
    ∀ line ∈ linesList level as, line.OneLine
  | [], _, _ => nofun
  | a :: as, level, h => by
    obtain ⟨ha, has⟩ := List.forall_mem_cons.mp h
    exact List.forall_mem_append.mpr
      ⟨oneLine_lines a level ha, oneLine_linesList as level has⟩

theorem oneLine_linesPairs : ∀ (ps : List (Text × Expr)) (level : Int),
    (∀ p ∈ ps, p.2.CallsIdentifiers) → ∀ line ∈ linesPairs level ps, line.OneLine
  | [], _, _ => nofun
  | (k, a) :: ps, level, h => by
    obtain ⟨ha, hps⟩ := List.forall_mem_cons.mp h
    exact List.forall_mem_cons.mpr ⟨oneLine_keyLine level k, List.forall_mem_append.mpr
      ⟨oneLine_lines a (level + 2) ha, oneLine_linesPairs ps level hps⟩⟩

end

/-! ### Outlines -/

/-- From the level minus one on, trees with one outline are equal. -/
theorem same_of_outline_eq {level : Int} {a b : Expr} (hlevel : -1 ≤ level)
    (ha : a.DistinctLiterals) (hb : b.DistinctLiterals) (hac : a.CallsIdentifiers)
    (hbc : b.CallsIdentifiers) (h : a.outline level = b.outline level) : same a b = true := by
  have hne (e : Expr) : lines level e ≠ [] := by
    obtain ⟨below, hbelow⟩ := exists_lines_eq level e
    rw [hbelow]
    exact List.cons_ne_nil _ _
  have hlines : lines level a = lines level b :=
    intercalate_injective (hne a) (hne b) (oneLine_lines a level hac) (oneLine_lines b level hbc) h
  refine (same_of_lines a b hlevel ha hb (noDeeper_nil level) (noDeeper_nil level) ?_).1
  rw [hlines]

/-- Below that level no line of these trees is indented, and they differ in nothing else. -/
theorem outline_nested {level : Int} (hlevel : level < -1) (a b : Atom) (o o' o₁ o₂ o₃ o₄ : Nat) :
    outline level (.list [.list [.atom a o₁] o₂, .atom b o₃] o) =
      outline level (.list [.list [.atom a o₁, .atom b o₄] o₂] o') := by
  have hmargin {l : Int} (hl : l ≤ 0) : margin l = [] := by
    rw [margin, Int.toNat_of_nonpos hl]
    rfl
  simp only [outline, lines, linesList, headLine, hmargin (show level ≤ 0 by omega),
    hmargin (show level + 1 ≤ 0 by omega), hmargin (show level + 1 + 1 ≤ 0 by omega)]
  cases b <;> rfl

end Expr

/-- Outlines tell trees apart.  At any level from minus one on, and at no level below, trees of
sources that call functions by identifiers only are equal if their outlines are: whatever names,
keys and documents are in them, and up to offsets and the order of the keys of documents.  Their
comparison finds that out, whatever is one object in them, unless the stack suffices for neither. -/
theorem outline_identifies_iff (level : Int) :
    (∀ (s t : Text) (a b : Expr), Expr.parse s = .ok a → Expr.parse t = .ok b →
      a.CallsIdentifiers → b.CallsIdentifiers → a.outline level = b.outline level →
      Expr.same a b = true ∧
        ∀ shared, Expr.equal? shared stackFrames a b = some true ∨
          Expr.equal? shared stackFrames a b = none ∧
            stackFrames < a.frames ∧ stackFrames < b.frames) ↔
    -1 ≤ level := by
  constructor
  · intro h
    by_contra hlevel
    have hnested := Expr.outline_nested (Int.not_le.mp hlevel) (.field "a") (.field "b") 0 0 2 1 5 4
    obtain ⟨hsame, -⟩ := h "[[a],b]" "[[a,b]]" _ _ rfl rfl
      (by simp [Expr.CallsIdentifiers, Expr.walk, Expr.walkList])
      (by simp [Expr.CallsIdentifiers, Expr.walk, Expr.walkList]) hnested
    exact absurd hsame (by decide)
  · intro hlevel s t a b ha hb hac hbc h
    have hsame : Expr.same a b = true := Expr.same_of_outline_eq hlevel (parse_distinct ha)
      (parse_distinct hb) hac hbc h
    refine ⟨hsame, fun shared => ?_⟩
    have hfinds := Expr.equal?_finds shared (parse_distinct ha) (parse_distinct hb) stackFrames
    rw [hsame] at hfinds
    cases hequal : Expr.equal? shared stackFrames a b with
    | some answer =>
      rw [hequal] at hfinds
      exact .inl (congrArg some hfinds.symm)
    | none =>
      rw [hequal] at hfinds
      exact .inr ⟨rfl, hfinds⟩

/-- Trees of sources that differ in their spaces. -/
theorem outline_identifies_spaced :
    let a : Expr := .hash [("k", .call "f" [.atom (.field "c") 6] 4)] 0
    let b : Expr := .hash [("k", .call "f" [.atom (.field "c") 8] 6)] 0
    Expr.parse "{k: f(c)}" = .ok a ∧ Expr.parse "{ k : f(c) }" = .ok b ∧
      a.outline 0 = b.outline 0 ∧ Expr.same a b = true := by
  intro a b
  have ha : Expr.parse "{k: f(c)}" = .ok a := rfl
  have hb : Expr.parse "{ k : f(c) }" = .ok b := rfl
  have hcalls (o o' p : Nat) :
      (Expr.hash [("k", .call "f" [.atom (.field "c") o] o')] p).CallsIdentifiers := by
    intro f as q hcall
    obtain ⟨rfl, -⟩ : f = "f" ∧ _ := by simpa [Expr.walk, Expr.walkList, Expr.walkPairs] using hcall
    rfl
  have h := (outline_identifies_iff 0).mpr (by decide) _ _ _ _ ha hb (hcalls _ _ _) (hcalls _ _ _)
    rfl
  exact ⟨ha, hb, rfl, h.1⟩

namespace Expr

/-- A name behind a number of signs that negate it. -/
def negations : Nat → Nat → Expr
  | 0, o => .atom (.field "a") o
  | n + 1, o => .unary .not (negations n (o + 1)) o

theorem callsIdentifiers_negations (n o : Nat) : (negations n o).CallsIdentifiers := by
  intro f as p hcall
  induction n generalizing o with
  | zero => simp [negations, walk] at hcall
  | succ n ih => exact ih (o + 1) (by simpa [negations, walk] using hcall)

/-- A comparison of negations that are not one object takes frames for all of them. -/
theorem equal?_negations {n o frames : Nat} (h : frames < nodeFrames * (n + 1)) :
    equal? .apart frames (negations n o) (negations n o) = none := by
  have hne {a b : Expr} : ¬ Sharing.apart.tree a b = true := nofun
  induction n generalizing o frames with
  | zero => rw [equal?.eq_def, if_neg hne, if_pos (by omega)]
  | succ n ih =>
    rw [equal?.eq_def, if_neg hne]
    split
    · rfl
    · rw [Nat.mul_succ] at h
      exact ih (by omega)

end Expr

/-- Where nothing is indented, the lists that nodes stand in are lost; and the stack does not
suffice to compare two trees that are nested too deeply, though it suffices to write them. -/
theorem outline_alike_not_equal :
    (∃ a b, Expr.parse "[[a],b]" = .ok a ∧ Expr.parse "[[a,b]]" = .ok b ∧
        a.CallsIdentifiers ∧ b.CallsIdentifiers ∧ a.outline? (-2) =
          some (ofString "MultiSelectList\nMultiSelectList\nField 'a'\nField 'b'") ∧
        a.outline? (-2) = b.outline? (-2) ∧ Expr.equal? .apart stackFrames a b = some false) ∧
      ∃ a, Expr.parse (List.replicate 320 (.scalar '!') ++ ofString "a") = .ok a ∧
        a.CallsIdentifiers ∧ a.outline? 0 = some (a.outline 0) ∧
        Expr.equal? .apart stackFrames a a = none := by
  constructor
  · let a : Expr := .list [.list [.atom (.field "a") 2] 1, .atom (.field "b") 5] 0
    let b : Expr := .list [.list [.atom (.field "a") 2, .atom (.field "b") 4] 1] 0
    refine ⟨a, b, rfl, rfl, ?_, ?_, by decide +kernel, rfl, rfl⟩
    · simp [a, Expr.CallsIdentifiers, Expr.walk, Expr.walkList]
    · simp [b, Expr.CallsIdentifiers, Expr.walk, Expr.walkList]
  · have hparse : (Expr.parse (List.replicate 320 (.scalar '!') ++ ofString "a")).toOption =
        some (.negations 320 0) := by
      decide +kernel
    have hheight : ¬ stackFrames < (Expr.negations 320 0).height := by decide +kernel
    refine ⟨.negations 320 0, ?_, Expr.callsIdentifiers_negations 320 0, if_neg hheight,
      Expr.equal?_negations (by decide)⟩
    generalize Expr.parse _ = result at hparse ⊢
    cases result with
    | ok e => exact congrArg _ (Option.some.inj hparse)
    | error => cases hparse

end JsonQuery
