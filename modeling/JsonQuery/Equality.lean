/-
How the host compares values and trees.

Values and trees are compared part by part, one inside the other, which takes frames of the stack.
Where these do not suffice there is no answer.  What is one and the same object of the host is
equal to itself without a look at its parts.  A value does not tell which of its parts are one
object and which are only built alike, so this is told by a `Sharing`: it decides how many frames a
comparison takes.

* `Sharing` — which values and which trees are one object;
* `Sharing.apart`, `Sharing.alike` — nothing is, or all that is built alike;
* `Expr.equal?`, `Value.equal?` — equality of trees and of values, as far as the stack suffices;
* `Expr.frames`, `Value.frames` — the frames that suffice to compare them with any others.
-/
import JsonQuery.Expr
import JsonQuery.Nesting

namespace JsonQuery

namespace Expr

mutual

theorem bare_bare : ∀ e : Expr, e.bare.bare = e.bare
  | .atom _ _ => rfl
  | .unary _ a _ => by simp only [bare, bare_bare a]
  | .binary _ a b _ => by simp only [bare, bare_bare a, bare_bare b]
  | .filter a p b _ => by simp only [bare, bare_bare a, bare_bare p, bare_bare b]
  | .list as _ => by simp only [bare, bareList_bareList as]
  | .hash ps _ => by simp only [bare, barePairs_barePairs ps]
  | .call _ as _ => by simp only [bare, bareList_bareList as]

theorem bareList_bareList : ∀ es : List Expr, bareList (bareList es) = bareList es
  | [] => rfl
  | e :: es => by simp only [bareList, bare_bare e, bareList_bareList es]

theorem barePairs_barePairs : ∀ ps : List (Text × Expr), barePairs (barePairs ps) = barePairs ps
  | [] => rfl
  | (_, e) :: ps => by simp only [barePairs, bare_bare e, barePairs_barePairs ps]

end

end Expr

theorem Value.bare_bare (x : Value) : x.bare.bare = x.bare := by
  rw [bare, bare, Data.mapRef_mapRef]
  congr 1
  funext e
  exact e.bare_bare

/-- Which values, and which trees, are one object of the host.  What is one object is built alike,
and the offsets in it do not tell whether it is. -/
structure Sharing where
  value : Value → Value → Bool
  tree : Expr → Expr → Bool
  bare_value : ∀ {x y}, value x y = true → x.bare = y.bare
  value_bare : ∀ x y, value x.bare y.bare = value x y
  bare_tree : ∀ {a b}, tree a b = true → a.bare = b.bare
  tree_bare : ∀ a b, tree a.bare b.bare = tree a b

/-- No two values are one object: each has been built on its own. -/
def Sharing.apart : Sharing where
  value _ _ := false
  tree _ _ := false
  bare_value := nofun
  value_bare _ _ := rfl
  bare_tree := nofun
  tree_bare _ _ := rfl

/-- All values that are built alike are one object: each has been built once. -/
def Sharing.alike : Sharing where
  value x y := x.bare = y.bare
  tree a b := a.bare = b.bare
  bare_value := of_decide_eq_true
  value_bare x y := by rw [Value.bare_bare, Value.bare_bare]
  bare_tree := of_decide_eq_true
  tree_bare a b := by rw [Expr.bare_bare, Expr.bare_bare]

/-! ### Trees -/

namespace Expr

/-- The frames that the comparison of two nodes takes. -/
def nodeFrames : Nat := 3

/-- The frames that it takes where the nodes below them stand in lists. -/
def listFrames : Nat := 4

/-- The frames that it takes where these have keys. -/
def hashFrames : Nat := 7

end Expr

/-- Whether two atoms are equal, as far as a number of frames suffices to find it out. -/
def Atom.equal? (frames : Nat) : Atom → Atom → Option Bool
  | .literal a, .literal b => Json.equal? frames a b
  | a, b => some (a.same b)

namespace Expr

mutual

/-- Whether two trees are equal, offsets aside, as far as a number of frames suffices to find it
out.  Their parts are compared in the order of the fields of a node, up to the first that
differ. -/
def equal? (shared : Sharing) (frames : Nat) (a b : Expr) : Option Bool :=
  if shared.tree a b then some true
  else if frames < nodeFrames then none
  else match a, b with
    | .atom a _, .atom b _ => a.equal? (frames - nodeFrames) b
    | .unary op a _, .unary op' b _ =>
      if op = op' then equal? shared (frames - nodeFrames) a b else some false
    | .binary op a b _, .binary op' a' b' _ =>
      if op = op' then do
        if ← equal? shared (frames - nodeFrames) a a' then equal? shared (frames - nodeFrames) b b'
        else some false
      else some false
    | .filter a p b _, .filter a' p' b' _ => do
      if ← equal? shared (frames - nodeFrames) a a' then
        if ← equal? shared (frames - nodeFrames) b b' then
          equal? shared (frames - nodeFrames) p p'
        else some false
      else some false
    | .list as _, .list bs _ =>
      if frames < listFrames then none else equalList? shared (frames - listFrames) as bs
    | .hash ps _, .hash qs _ =>
      if frames < hashFrames then none else equalPairs? shared (frames - hashFrames) ps qs
    | .call f as _, .call g bs _ =>
      if f ≠ g then some false
      else if frames < listFrames then none
      else equalList? shared (frames - listFrames) as bs
    | _, _ => some false

/-- Whether two lists of trees are equal one by one, as far as the frames suffice. -/
def equalList? (shared : Sharing) (frames : Nat) : List Expr → List Expr → Option Bool
  | [], [] => some true
  | a :: as, b :: bs => do
    if ← equal? shared frames a b then equalList? shared frames as bs else some false
  | _, _ => some false

/-- Whether two lists of keyed trees are equal one by one, as far as the frames suffice. -/
def equalPairs? (shared : Sharing) (frames : Nat) :
    List (Text × Expr) → List (Text × Expr) → Option Bool
  | [], [] => some true
  | (k, a) :: ps, (l, b) :: qs =>
    if k = l then do
      if ← equal? shared frames a b then equalPairs? shared frames ps qs else some false
    else some false
  | _, _ => some false

end

mutual

/-- The frames that suffice to compare a tree with any other. -/
def frames : Expr → Nat
  | .atom (.literal j) _ => Data.frames Empty.elim j + nodeFrames
  | .atom _ _ => nodeFrames
  | .unary _ a _ => frames a + nodeFrames
  | .binary _ a b _ => max (frames a) (frames b) + nodeFrames
  | .filter a p b _ => max (frames a) (max (frames p) (frames b)) + nodeFrames
  | .list as _ => framesList as + listFrames
  | .hash ps _ => framesPairs ps + hashFrames
  | .call _ as _ => framesList as + listFrames

/-- The greatest number of frames that one of some trees needs. -/
def framesList : List Expr → Nat
  | [] => 0
  | a :: as => max (frames a) (framesList as)

/-- The greatest number of frames that one of some keyed trees needs. -/
def framesPairs : List (Text × Expr) → Nat
  | [] => 0
  | (_, a) :: ps => max (frames a) (framesPairs ps)

end

end Expr

/-! ### Values -/

namespace Value

/-- Whether two values are equal, as far as the stack suffices to find it out. -/
def equal? (shared : Sharing) (x y : Value) : Option Bool :=
  Data.equal? shared.value (Expr.equal? shared) stackFrames x y

/-- The frames that suffice to compare a value with any other. -/
def frames (x : Value) : Nat :=
  Data.frames Expr.frames x

end Value
end JsonQuery
