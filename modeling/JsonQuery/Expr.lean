/-
Query expressions.

An expression is an atom, an operator applied to one or two operands, a filter, a list or hash
of expressions built for one value, or a function call.  Every node remembers the offset in the
source that errors about it point to; the offset is no part of what the expression means.

* `Expr` — the trees, with a name for every way to form one;
* `Expr.same`, `Value.same` — equality of trees and of values, offsets aside;
* `Expr.height` — the number of nodes on a longest path from the root to a leaf;
* `Expr.bare`, `Value.bare` — trees and values with all offsets zero;
* `Expr.beq_iff` — whether two trees are built alike can be decided.
-/
import JsonQuery.Data.Equality
import JsonQuery.Data.Slice

namespace JsonQuery

/-- The comparison operators. -/
inductive Comparator where
  | eq
  | ne
  | lt
  | le
  | gt
  | ge
  deriving DecidableEq

/-- A comparison operator as it is written. -/
def Comparator.symbol : Comparator → String
  | .eq => "=="
  | .ne => "!="
  | .lt => "<"
  | .le => "<="
  | .gt => ">"
  | .ge => ">="

/-- Expressions without operands. -/
inductive Atom where
  /-- The current value, where the source leaves it out. -/
  | identity
  /-- The current value, written `@`. -/
  | current
  | field (name : Text)
  | index (place : Int)
  | slice (bounds : Slice)
  | literal (value : Json)
  deriving DecidableEq

/-- Operators with one operand. -/
inductive UnaryOp where
  | flatten
  | not
  /-- An expression that is not evaluated but passed on, written `&`. -/
  | reference
  deriving DecidableEq

/-- Operators with two operands. -/
inductive BinaryOp where
  /-- The right side for each item of an array. -/
  | eachItem
  /-- The right side for each value of an object. -/
  | eachValue
  | pipe
  | step
  | and
  | or
  | compare (c : Comparator)
  deriving DecidableEq

/-- Query expressions, each node with its offset. -/
inductive Expr where
  | atom (a : Atom) (offset : Nat)
  | unary (op : UnaryOp) (operand : Expr) (offset : Nat)
  | binary (op : BinaryOp) (left right : Expr) (offset : Nat)
  | filter (left predicate right : Expr) (offset : Nat)
  | list (elements : List Expr) (offset : Nat)
  | hash (pairs : List (Text × Expr)) (offset : Nat)
  | call (name : Text) (args : List Expr) (offset : Nat)

/-- The values that queries compute: they may hold expressions. -/
abbrev Value := Data Expr

namespace Expr

/-- The offset of the root. -/
def offset : Expr → Nat
  | .atom _ offset => offset
  | .unary _ _ offset => offset
  | .binary _ _ _ offset => offset
  | .filter _ _ _ offset => offset
  | .list _ offset => offset
  | .hash _ offset => offset
  | .call _ _ offset => offset

/-- The subexpressions directly below the root, in the order in which the tree is walked. -/
def children : Expr → List Expr
  | .atom _ _ => []
  | .unary _ operand _ => [operand]
  | .binary _ left right _ => [left, right]
  | .filter left predicate right _ => [left, predicate, right]
  | .list elements _ => elements
  | .hash pairs _ => pairs.map Prod.snd
  | .call _ args _ => args

end Expr

/-- Whether two atoms are equal; literals are compared as values. -/
def Atom.same : Atom → Atom → Bool
  | .identity, .identity => true
  | .current, .current => true
  | .field a, .field b => a == b
  | .index a, .index b => a == b
  | .slice a, .slice b => a == b
  | .literal a, .literal b => Json.same a b
  | _, _ => false

namespace Expr

mutual

/-- Whether two trees are equal, offsets aside. -/
def same : Expr → Expr → Bool
  | .atom a _, .atom b _ => a.same b
  | .unary op a _, .unary op' b _ => op == op' && same a b
  | .binary op a b _, .binary op' a' b' _ => op == op' && same a a' && same b b'
  | .filter a p b _, .filter a' p' b' _ => same a a' && same p p' && same b b'
  | .list as _, .list bs _ => sameList as bs
  | .hash ps _, .hash qs _ => samePairs ps qs
  | .call f as _, .call g bs _ => f == g && sameList as bs
  | _, _ => false

/-- Whether two lists of trees are equal one by one. -/
def sameList : List Expr → List Expr → Bool
  | [], [] => true
  | a :: as, b :: bs => same a b && sameList as bs
  | _, _ => false

/-- Whether two lists of keyed trees are equal one by one. -/
def samePairs : List (Text × Expr) → List (Text × Expr) → Bool
  | [], [] => true
  | (k, a) :: as, (l, b) :: bs => k == l && same a b && samePairs as bs
  | _, _ => false

end

mutual

/-- The number of nodes on a longest path from the root to a leaf. -/
def height : Expr → Nat
  | .atom _ _ => 1
  | .unary _ a _ => height a + 1
  | .binary _ a b _ => max (height a) (height b) + 1
  | .filter a p b _ => max (height a) (max (height p) (height b)) + 1
  | .list as _ => heightList as + 1
  | .hash ps _ => heightPairs ps + 1
  | .call _ as _ => heightList as + 1

/-- The greatest height of some trees. -/
def heightList : List Expr → Nat
  | [] => 0
  | a :: as => max (height a) (heightList as)

/-- The greatest height of some keyed trees. -/
def heightPairs : List (Text × Expr) → Nat
  | [] => 0
  | (_, a) :: as => max (height a) (heightPairs as)

end

mutual

/-- All nodes of a tree, each before those below it. -/
def walk : Expr → List Expr
  | .atom a offset => [.atom a offset]
  | .unary op a offset => .unary op a offset :: walk a
  | .binary op a b offset => .binary op a b offset :: (walk a ++ walk b)
  | .filter a p b offset => .filter a p b offset :: (walk a ++ walk p ++ walk b)
  | .list as offset => .list as offset :: walkList as
  | .hash ps offset => .hash ps offset :: walkPairs ps
  | .call f as offset => .call f as offset :: walkList as

/-- All nodes of some trees. -/
def walkList : List Expr → List Expr
  | [] => []
  | a :: as => walk a ++ walkList as

/-- All nodes of some keyed trees. -/
def walkPairs : List (Text × Expr) → List Expr
  | [] => []
  | (_, a) :: as => walk a ++ walkPairs as

end

mutual

/-- A tree with all offsets zero. -/
def bare : Expr → Expr
  | .atom a _ => .atom a 0
  | .unary op a _ => .unary op (bare a) 0
  | .binary op a b _ => .binary op (bare a) (bare b) 0
  | .filter a p b _ => .filter (bare a) (bare p) (bare b) 0
  | .list as _ => .list (bareList as) 0
  | .hash ps _ => .hash (barePairs ps) 0
  | .call f as _ => .call f (bareList as) 0

/-- Trees with all offsets zero. -/
def bareList : List Expr → List Expr
  | [] => []
  | a :: as => bare a :: bareList as

/-- Keyed trees with all offsets zero. -/
def barePairs : List (Text × Expr) → List (Text × Expr)
  | [] => []
  | (k, a) :: ps => (k, bare a) :: barePairs ps

end

/-! ### Trees that are built alike -/

mutual

/-- Whether two trees are built alike, to their offsets. -/
def beq : Expr → Expr → Bool
  | .atom a o, .atom b o' => a == b && o == o'
  | .unary op a o, .unary op' b o' => op == op' && beq a b && o == o'
  | .binary op a b o, .binary op' a' b' o' => op == op' && beq a a' && beq b b' && o == o'
  | .filter a p b o, .filter a' p' b' o' => beq a a' && beq p p' && beq b b' && o == o'
  | .list as o, .list bs o' => beqList as bs && o == o'
  | .hash ps o, .hash qs o' => beqPairs ps qs && o == o'
  | .call f as o, .call g bs o' => f == g && beqList as bs && o == o'
  | _, _ => false

/-- Whether two lists of trees are built alike. -/
def beqList : List Expr → List Expr → Bool
  | [], [] => true
  | a :: as, b :: bs => beq a b && beqList as bs
  | _, _ => false

/-- Whether two lists of keyed trees are built alike. -/
def beqPairs : List (Text × Expr) → List (Text × Expr) → Bool
  | [], [] => true
  | (k, a) :: ps, (l, b) :: qs => k == l && beq a b && beqPairs ps qs
  | _, _ => false

end

mutual

theorem beq_iff : ∀ a b : Expr, beq a b = true ↔ a = b
  | .atom a o, b => by cases b <;> simp [beq]
  | .unary op a o, b => by cases b <;> simp [beq, beq_iff a, and_assoc]
  | .binary op a a' o, b => by cases b <;> simp [beq, beq_iff a, beq_iff a', and_assoc]
  | .filter a p a' o, b => by cases b <;> simp [beq, beq_iff a, beq_iff p, beq_iff a', and_assoc]
  | .list as o, b => by cases b <;> simp [beq, beqList_iff as]
  | .hash ps o, b => by cases b <;> simp [beq, beqPairs_iff ps]
  | .call f as o, b => by cases b <;> simp [beq, beqList_iff as, and_assoc]

theorem beqList_iff : ∀ as bs : List Expr, beqList as bs = true ↔ as = bs
  | [], bs => by cases bs <;> simp [beqList]
  | a :: as, bs => by cases bs <;> simp [beqList, beq_iff a, beqList_iff as]

theorem beqPairs_iff : ∀ ps qs : List (Text × Expr), beqPairs ps qs = true ↔ ps = qs
  | [], qs => by cases qs <;> simp [beqPairs]
  | (k, a) :: ps, qs => by
    cases qs with
    | nil => simp [beqPairs]
    | cons q qs => simp [beqPairs, beq_iff a, beqPairs_iff ps, Prod.ext_iff]

end

instance : DecidableEq Expr :=
  fun a b => decidable_of_iff _ (beq_iff a b)

end Expr

namespace Value

/-- Whether two values are equal; expressions in them are compared without offsets. -/
def same (x y : Value) : Bool :=
  Data.same Expr.same x y

/-- A value whose expressions have all offsets zero. -/
def bare (x : Value) : Value :=
  x.mapRef Expr.bare

end Value
end JsonQuery
