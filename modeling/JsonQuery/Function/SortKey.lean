/-
Keys that items are ordered by.

A key is a number or a text.  Texts are ordered by their code points; keys of one kind are
ordered among themselves, and a list of items is ordered by keys of one kind only.

* `SortKey.le` — the order of keys;
* `sortByKeys` — items in the order of their keys, those with equal keys as they came;
* `leastByKey`, `greatestByKey` — the first item with the least or the greatest key.
-/
import JsonQuery.Expr

namespace JsonQuery

/-- A key that items are ordered by. -/
inductive SortKey where
  | number (x : Number)
  | text (t : Text)

namespace SortKey

/-- The key that a value is, if it is one. -/
def ofValue? : Value → Option SortKey
  | .num x => some (.number x)
  | .str t => some (.text t)
  | _ => none

/-- The kind of values that a key comes from. -/
def kind : SortKey → Kind
  | .number _ => .number
  | .text _ => .string

/-- Whether a key comes before another. -/
def lt : SortKey → SortKey → Bool
  | .number x, .number y => x.lt y
  | .text s, .text t => decide (s < t)
  | .number _, .text _ => true
  | .text _, .number _ => false

/-- Whether a key comes before another or in the same place. -/
def le (a b : SortKey) : Bool :=
  !b.lt a

end SortKey

/-- Items with their keys. -/
abbrev Keyed := List (SortKey × Value)

/-- Items in the order of their keys; items with equal keys stay in their order. -/
def sortByKeys (items : Keyed) : List Value :=
  (items.mergeSort fun a b => a.1.le b.1).map Prod.snd

/-- The first item whose key is least. -/
def leastByKey : Keyed → Option Value
  | [] => none
  | x :: xs => some (xs.foldl (fun best y => if y.1.lt best.1 then y else best) x).2

/-- The first item whose key is greatest. -/
def greatestByKey : Keyed → Option Value
  | [] => none
  | x :: xs => some (xs.foldl (fun best y => if best.1.lt y.1 then y else best) x).2

end JsonQuery
