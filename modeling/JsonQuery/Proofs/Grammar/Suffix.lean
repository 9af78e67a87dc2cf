/-
What a step of parsing gives, and what it leaves unread.

A step never looks beyond the tokens that it is given: what it leaves is an end of them.  What it
gives is built from what is nested in it, so a property that passes from the nodes below a node to
the node passes from what is nested in a production to what the production gives.  A call is the
exception: its name is a node that is gone.

* `Grammar.Yields` — what a step gives has a property, and what it leaves is an end of some tokens;
* `Grammar.Inherited` — a property that every node but a call has if the nodes below it have it;
* `Grammar.yields_operand`, `Grammar.yields_extend` — such a property is one of what is given, and
  what an operator gives is no name;
* `Grammar.leaves_expression` — the parser of expressions leaves an end of its tokens.
-/
import JsonQuery.Proofs.Grammar.Sound

namespace JsonQuery
namespace Grammar

open JsonQuery.Parser

variable {α β : Type} {stop : Nat} {items ts rest : List Token} {P : α → Prop} {Q : β → Prop}

/-- If a step succeeds, what it gives has a property, and what it leaves is an end of some
tokens. -/
def Yields (items : List Token) (P : α → Prop) (x : Except ParseError (α × List Token)) : Prop :=
  ∀ ⦃a rest⦄, x = .ok (a, rest) → P a ∧ rest <:+ items

/-- What comes after the first of some tokens that end others is an end of them, too. -/
theorem tail_suffix {t : Token} (h : t :: ts <:+ items) : ts <:+ items :=
  (List.suffix_cons t ts).trans h

/-! ### Steps one after the other -/

theorem yields_ok {a : α} (ha : P a) (h : rest <:+ items) : Yields items P (.ok (a, rest)) := by
  intro _ _ hx
  cases hx
  exact ⟨ha, h⟩

theorem yields_refuse {problem : ParseProblem} {context : Text} :
    Yields items P (refuse stop problem context ts) :=
  fun _ _ h => absurd h refuse_ne_ok

theorem Yields.bind {x : Except ParseError (α × List Token)}
    {f : α × List Token → Except ParseError (β × List Token)} (hx : Yields items P x)
    (hf : ∀ a mid, P a → mid <:+ items → Yields items Q (f (a, mid))) :
    Yields items Q (x >>= f) := by
  intro b rest h
  obtain ⟨⟨a, mid⟩, ha, h⟩ := bind_eq_ok.mp h
  obtain ⟨hp, hm⟩ := hx ha
  exact hf a mid hp hm h

theorem Yields.imp {P' : α → Prop} {x : Except ParseError (α × List Token)} (hx : Yields items P x)
    (h : ∀ a, P a → P' a) : Yields items P' x := by
  intro a rest ha
  obtain ⟨hp, hr⟩ := hx ha
  exact ⟨h a hp, hr⟩

theorem Yields.map {x : Except ParseError (α × List Token)} {f : α → β} (hx : Yields items P x)
    (hf : ∀ a, P a → Q (f a)) : Yields items Q (x.map fun (a, rest) => (f a, rest)) := by
  intro b rest h
  obtain ⟨⟨a, mid⟩, ha, h⟩ := map_eq_ok.mp h
  cases h
  obtain ⟨hp, hm⟩ := hx ha
  exact ⟨hf a hp, hm⟩

theorem yields_expect {s : Symbol} {context : Text}
    {f : List Token → Except ParseError (α × List Token)} (h : ts <:+ items)
    (hf : ∀ mid, mid <:+ items → Yields items P (f mid)) :
    Yields items P (expect stop s context ts >>= f) := by
  intro b rest hx
  obtain ⟨mid, hm, hb⟩ := bind_eq_ok.mp hx
  obtain ⟨o, rfl⟩ := expect_eq_ok.mp hm
  exact hf mid (tail_suffix h) hb

/-! ### Indices and slices -/

theorem yields_sliceParts {i : Nat} {s : Slice} (h : ts <:+ items) :
    Yields items (fun _ => True) (sliceParts stop i s ts) := by
  induction ts generalizing i s with
  | nil => exact yields_refuse
  | cons t ts ih =>
    rw [sliceParts]
    split
    · exact yields_ok trivial (tail_suffix h)
    · split
      · exact yields_refuse
      · exact ih (tail_suffix h)
    · split
      · exact yields_refuse
      · exact ih (tail_suffix h)
    · exact yields_refuse

/-- An index or a slice is no name. -/
theorem yields_bracket (h : ts <:+ items) :
    Yields items (fun a : Atom => ∀ name, a ≠ .field name) (bracket stop ts) := by
  unfold bracket
  split
  · split
    · exact (yields_sliceParts h).map fun _ _ => nofun
    · intro a rest hx
      obtain ⟨mid, hm, hx⟩ := map_eq_ok.mp hx
      cases hx
      obtain ⟨o, rfl⟩ := expect_eq_ok.mp hm
      exact ⟨nofun, tail_suffix (tail_suffix h)⟩
  · exact (yields_sliceParts h).map fun _ _ => nofun

/-! ### Properties of trees -/

/-- A property passes from the nodes below a node to the node, if that is no call. -/
def Inherited (P : Expr → Prop) : Prop :=
  ∀ ⦃e⦄, (∀ name args o, e ≠ .call name args o) → (∀ c ∈ e.children, P c) → P e

namespace Inherited

variable {P : Expr → Prop} {a b p : Expr} {o : Nat} (hP : Inherited P)
include hP

theorem atom {a : Atom} : P (.atom a o) :=
  hP nofun nofun

theorem unary {op : UnaryOp} (ha : P a) : P (.unary op a o) :=
  hP nofun (by simpa [Expr.children] using ha)

theorem binary {op : BinaryOp} (ha : P a) (hb : P b) : P (.binary op a b o) :=
  hP nofun (by simp [Expr.children, ha, hb])

theorem filter (ha : P a) (hp : P p) (hb : P b) : P (.filter a p b o) :=
  hP nofun (by simp [Expr.children, ha, hp, hb])

theorem list {es : List Expr} (hes : ∀ e ∈ es, P e) : P (.list es o) :=
  hP nofun hes

theorem hash {ps : List (Text × Expr)} (hps : ∀ p ∈ ps, P p.2) : P (.hash ps o) :=
  hP nofun (List.forall_mem_map.mpr hps)

end Inherited

/-- A tree is not just a name. -/
def Nameless (e : Expr) : Prop :=
  ∀ name o, e ≠ .atom (.field name) o

/-! ### Productions -/

section
variable {bound : Nat} {sub : Nat → Step Expr} {P : Expr → Prop} (hP : Inherited P)
  (hS : ∀ least ⦃ts⦄, ts <:+ items → Yields items P (sub least ts))
include hS

theorem yields_elements {fuel : Nat} (h : ts <:+ items) :
    Yields items (fun es => ∀ e ∈ es, P e) (elements stop sub fuel ts) := by
  induction fuel generalizing ts with
  | zero => exact yields_refuse
  | succ fuel ih =>
    unfold elements
    split
    · exact yields_refuse
    · refine (hS _ h).bind fun e mid he hm => ?_
      dsimp only
      split
      · exact yields_ok (by simpa using he) (tail_suffix hm)
      · refine (ih (tail_suffix hm)).bind fun es rest hes hr => ?_
        exact yields_ok (List.forall_mem_cons.mpr ⟨he, hes⟩) hr
      · exact yields_refuse
      · exact yields_refuse

theorem yields_pair (h : ts <:+ items) :
    Yields items (fun p : Text × Expr => P p.2) (pair stop sub ts) := by
  cases ts with
  | nil => exact yields_refuse
  | cons t ts =>
    rw [pair]
    split
    · exact yields_refuse
    · refine yields_expect (tail_suffix h) fun mid hm => ?_
      exact (hS _ hm).bind fun e rest he hr => yields_ok he hr

theorem yields_pairs {fuel : Nat} (h : ts <:+ items) :
    Yields items (fun ps => ∀ p ∈ ps, P p.2) (pairs stop sub fuel ts) := by
  induction fuel generalizing ts with
  | zero => exact yields_refuse
  | succ fuel ih =>
    rw [pairs]
    refine (yields_pair hS h).bind fun p mid hp hm => ?_
    dsimp only
    split
    · exact yields_ok (by simpa using hp) (tail_suffix hm)
    · refine (ih (tail_suffix hm)).bind fun ps rest hps hr => ?_
      exact yields_ok (List.forall_mem_cons.mpr ⟨hp, hps⟩) hr
    · exact yields_refuse
    · exact yields_refuse

theorem yields_arguments {name : Text} {fuel : Nat} (h : ts <:+ items) :
    Yields items (fun es => ∀ e ∈ es, P e) (arguments stop sub name fuel ts) := by
  induction fuel generalizing ts with
  | zero => exact yields_refuse
  | succ fuel ih =>
    unfold arguments
    split
    · exact yields_ok nofun (tail_suffix h)
    · exact yields_refuse
    · refine (hS _ h).bind fun e mid he hm => ?_
      dsimp only
      split
      · exact yields_ok (by simpa using he) (tail_suffix hm)
      · exact yields_refuse
      · refine (ih (tail_suffix hm)).bind fun es rest hes hr => ?_
        exact yields_ok (List.forall_mem_cons.mpr ⟨he, hes⟩) hr
      · exact yields_refuse

include hP

theorem yields_multiList {o : Nat} (h : ts <:+ items) :
    Yields items P (multiList stop bound sub o ts) :=
  (yields_elements hS h).bind fun _ _ hes hr => yields_ok (hP.list hes) hr

theorem yields_multiHash {o : Nat} (h : ts <:+ items) :
    Yields items P (multiHash stop bound sub o ts) :=
  (yields_pairs hS h).bind fun _ _ hps hr => yields_ok (hP.hash hps) hr

theorem yields_afterDot {least : Nat} (h : ts <:+ items) :
    Yields items P (afterDot stop bound sub least ts) := by
  unfold afterDot
  split
  · exact hS _ h
  · exact hS _ h
  · exact hS _ h
  · exact yields_multiList hP hS (tail_suffix h)
  · exact yields_multiHash hP hS (tail_suffix h)
  · exact yields_refuse

theorem yields_projected {least : Nat} (h : ts <:+ items) :
    Yields items P (projected stop bound sub least ts) := by
  unfold projected
  split
  · exact yields_ok hP.atom h
  · split
    · exact hS _ h
    · exact hS _ h
    · exact yields_afterDot hP hS (tail_suffix h)
    · exact yields_refuse

section
variable {left : Expr} {o : Nat} (hl : P left)
include hl

theorem yields_bracketed (h : ts <:+ items) :
    Yields items (fun e => P e ∧ Nameless e) (bracketed stop bound sub left o ts) := by
  refine (yields_bracket h).bind fun a mid ha hm => ?_
  let indexed := if isIdentity left then Expr.atom a o else .binary .step left (.atom a o) o
  have hindexed : P indexed ∧ Nameless indexed := by
    dsimp only [indexed]
    split
    · refine ⟨hP.atom, fun name o h => ?_⟩
      cases h
      exact ha name rfl
    · exact ⟨hP.binary hl hP.atom, nofun⟩
  dsimp only
  split
  · refine (yields_projected hP hS hm).bind fun right rest hright hr => ?_
    exact yields_ok ⟨hP.binary hindexed.1 hright, nofun⟩ hr
  · exact yields_ok hindexed hm

theorem yields_filtered (h : ts <:+ items) :
    Yields items (fun e => P e ∧ Nameless e) (filtered stop bound sub left o ts) := by
  refine (hS _ h).bind fun p mid hp hm => yields_expect hm fun mid hm => ?_
  split
  · exact yields_ok ⟨hP.filter hl hp hP.atom, nofun⟩ hm
  · refine (yields_projected hP hS hm).bind fun right rest hright hr => ?_
    exact yields_ok ⟨hP.filter hl hp hright, nofun⟩ hr

theorem yields_flattened (h : ts <:+ items) :
    Yields items (fun e => P e ∧ Nameless e) (flattened stop bound sub left o ts) :=
  (yields_projected hP hS h).bind fun _ _ hright hr =>
    yields_ok ⟨hP.binary (hP.unary hl) hright, nofun⟩ hr

theorem yields_infixed {op : BinaryOp} {least : Nat} (h : ts <:+ items) :
    Yields items (fun e => P e ∧ Nameless e) (infixed sub op least left o ts) :=
  (hS _ h).bind fun _ _ hright hr => yields_ok ⟨hP.binary hl hright, nofun⟩ hr

theorem yields_compared {c : Comparator} {least : Nat} (h : ts <:+ items) :
    Yields items (fun e => P e ∧ Nameless e) (compared stop sub c least left o ts) := by
  refine (hS _ h).bind fun right rest hright hr => ?_
  dsimp only
  split
  · exact yields_refuse
  · exact yields_ok ⟨hP.binary hl hright, nofun⟩ hr

end

theorem yields_operand (h : ts <:+ items) : Yields items P (operand stop bound sub ts) := by
  cases ts with
  | nil => exact yields_refuse
  | cons t ts =>
    unfold operand
    dsimp only
    replace h := tail_suffix h
    -- One case for each kind of lexeme that the parser looks for, in its order.
    split
    · exact yields_ok hP.atom h
    · split
      · exact yields_refuse
      · exact yields_ok hP.atom h
    · exact yields_ok hP.atom h
    · exact yields_ok hP.atom h
    · exact yields_ok hP.atom h
    · split
      · exact yields_ok (hP.binary hP.atom hP.atom) h
      · refine (yields_projected hP hS h).bind fun right rest hright hr => ?_
        exact yields_ok (hP.binary hP.atom hright) hr
    · exact (yields_filtered hP hS hP.atom h).imp fun _ => And.left
    · exact (yields_flattened hP hS hP.atom h).imp fun _ => And.left
    · exact (hS _ h).bind fun e rest he hr => yields_ok (hP.unary he) hr
    · refine (hS _ h).bind fun e mid he hm => yields_expect hm fun rest hr => ?_
      exact yields_ok he hr
    · exact yields_multiHash hP hS h
    · exact (hS _ h).bind fun e rest he hr => yields_ok (hP.unary he) hr
    · split
      · exact (yields_bracketed hP hS hP.atom h).imp fun _ => And.left
      · split
        · refine (yields_projected hP hS (tail_suffix (tail_suffix h))).bind
            fun right rest hright hr => ?_
          exact yields_ok (hP.binary hP.atom hright) hr
        · exact yields_multiList hP hS h
    · exact yields_refuse

/-- What stands before an operator may be a name that the operator calls; whether the call has the
property is known to whoever knows the tokens before it. -/
theorem yields_extend {left : Expr} {t : Token} (hl : P left)
    (hcall : ∀ name args o, left = .atom (.field name) o → t.lexeme = .symbol .leftParen →
      (∀ a ∈ args, P a) → P (.call name args o))
    (h : ts <:+ items) :
    Yields items (fun e => P e ∧ Nameless e) (extend stop bound sub left t ts) := by
  unfold extend
  -- A dot, a bracket, a filter, a flattening, three infixes, a call and the comparisons.
  split
  · split
    · refine (yields_projected hP hS (tail_suffix h)).bind fun right rest hright hr => ?_
      exact yields_ok ⟨hP.binary hl hright, nofun⟩ hr
    · refine (yields_afterDot hP hS h).bind fun right rest hright hr => ?_
      exact yields_ok ⟨hP.binary hl hright, nofun⟩ hr
  · split
    · exact yields_bracketed hP hS hl h
    · refine yields_expect h fun mid hm => yields_expect hm fun mid hm => ?_
      refine (yields_projected hP hS hm).bind fun right rest hright hr => ?_
      exact yields_ok ⟨hP.binary hl hright, nofun⟩ hr
  · exact yields_filtered hP hS hl h
  · exact yields_flattened hP hS hl h
  · exact yields_infixed hP hS hl h
  · exact yields_infixed hP hS hl h
  · exact yields_infixed hP hS hl h
  · next ht =>
    split
    · refine (yields_arguments hS h).bind fun args rest hargs hr => ?_
      exact yields_ok ⟨hcall _ _ _ rfl ht hargs, nofun⟩ hr
    · exact yields_refuse
  · split
    · exact yields_compared hP hS hl h
    · exact yields_refuse
  · exact yields_refuse

end

/-! ### What is left unread -/

/-- If a step succeeds, what it leaves is an end of some tokens. -/
def Leaves (x : Except ParseError (α × List Token)) (ts : List Token) : Prop :=
  ∀ ⦃a rest⦄, x = .ok (a, rest) → rest <:+ ts

theorem Yields.leaves {x : Except ParseError (α × List Token)} (h : Yields items P x) :
    Leaves x items :=
  fun _ _ hx => (h hx).2

theorem leaves_ok {a : α} : Leaves (.ok (a, ts)) ts := by
  intro _ _ h
  cases h
  exact List.suffix_refl ts

theorem leaves_bracket : Leaves (bracket stop ts) ts :=
  (yields_bracket (List.suffix_refl ts)).leaves

/-- What is left unread does not depend on a property of what is given. -/
theorem inherited_true : Inherited fun _ => True :=
  fun _ _ _ => trivial

section
variable {bound : Nat} {sub : Nat → Step Expr} (hS : ∀ least ts, Leaves (sub least ts) ts)
include hS

theorem yields_nested (least : Nat) ⦃ts : List Token⦄ (h : ts <:+ items) :
    Yields items (fun _ => True) (sub least ts) :=
  fun _ _ hx => ⟨trivial, (hS least ts hx).trans h⟩

theorem leaves_pair : Leaves (pair stop sub ts) ts :=
  (yields_pair (yields_nested hS) (List.suffix_refl ts)).leaves

theorem leaves_operand : Leaves (operand stop bound sub ts) ts :=
  (yields_operand inherited_true (yields_nested hS) (List.suffix_refl ts)).leaves

theorem leaves_extend {left : Expr} {t : Token} : Leaves (extend stop bound sub left t ts) ts :=
  (yields_extend inherited_true (yields_nested hS) trivial (fun _ _ _ _ _ _ => trivial)
    (List.suffix_refl ts)).leaves

theorem leaves_operators {least fuel : Nat} {left : Expr} :
    Leaves (operators stop bound sub least fuel left ts) ts := by
  induction fuel generalizing left ts with
  | zero => exact leaves_ok
  | succ fuel ih =>
    cases ts with
    | nil => exact leaves_ok
    | cons t ts =>
      rw [operators]
      split
      · intro e rest h
        obtain ⟨⟨left, mid⟩, hx, h⟩ := bind_eq_ok.mp h
        exact ((ih h).trans (leaves_extend hS hx)).trans (List.suffix_cons _ _)
      · exact leaves_ok

end

/-- The parser of expressions leaves an end of its tokens. -/
theorem leaves_expression (bound n least : Nat) (ts : List Token) :
    Leaves (expression stop bound n least ts) ts := by
  induction n generalizing least ts with
  | zero =>
    intro e rest h
    cases h
  | succ n ih =>
    intro e rest h
    rw [expression] at h
    obtain ⟨⟨left, mid⟩, ho, h⟩ := bind_eq_ok.mp h
    exact (leaves_operators ih h).trans (leaves_operand ih ho)

end Grammar
end JsonQuery
