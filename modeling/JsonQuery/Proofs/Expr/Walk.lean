/-
What a walk over a tree comes across.

A walk goes to every node before the nodes below it, and to each key of a hash just before its
value.  A node says what it carries besides the nodes below it: a name, a value, or the numbers of
an index or a slice.

* `Expr.walk_eq` — a walk goes to the root and then through the children in their order;
* `Expr.walk_subset` — the nodes of a node of a tree are nodes of the tree;
* `Expr.height_lt_of_mem_children` — and each is less high than the one above it;
* `Expr.visits` — the walk with the keys of hashes, `Expr.filterMap_visits` being the nodes in it;
* `Expr.words` — what the nodes and keys of a tree say, in the order of the walk.
-/
import JsonQuery.Expr.Parser

namespace JsonQuery

/-- What a token or a node of a tree says besides its kind. -/
inductive Word where
  | name (t : Text)
  | value (j : Json)
  | number (i : Int)

/-- The parts that a slice has, in the order of start, stop and step. -/
def Slice.words (s : Slice) : List Word :=
  (s.start.toList ++ s.stop.toList ++ s.step.toList).map .number

/-- What an atom says. -/
def Atom.words : Atom → List Word
  | .identity => []
  | .current => []
  | .field name => [.name name]
  | .index i => [.number i]
  | .slice s => s.words
  | .literal value => [.value value]

/-- A stop of a walk over a tree. -/
inductive Visit where
  | node (e : Expr)
  | key (name : Text)

/-- The node that a stop is at. -/
def Visit.node? : Visit → Option Expr
  | .node e => some e
  | .key _ => none

/-- What is said at a stop: that of a node leaves out what the nodes below it say. -/
def Visit.words : Visit → List Word
  | .node (.atom a _) => a.words
  | .node (.call name _ _) => [.name name]
  | .node _ => []
  | .key name => [.name name]

namespace Expr

mutual

theorem walk_eq : ∀ e : Expr, e.walk = e :: e.children.flatMap walk
  | .atom _ _ => rfl
  | .unary _ a _ => by simp [walk, children]
  | .binary _ a b _ => by simp [walk, children]
  | .filter a p b _ => by simp [walk, children]
  | .list as _ => by rw [walk, children, walkList_eq]
  | .hash ps _ => by rw [walk, children, walkPairs_eq]
  | .call _ as _ => by rw [walk, children, walkList_eq]

theorem walkList_eq : ∀ as : List Expr, walkList as = as.flatMap walk
  | [] => rfl
  | a :: as => by rw [walkList, walkList_eq as, List.flatMap_cons]

theorem walkPairs_eq : ∀ ps : List (Text × Expr), walkPairs ps = (ps.map Prod.snd).flatMap walk
  | [] => rfl
  | (_, a) :: ps => by rw [walkPairs, walkPairs_eq ps, List.map_cons, List.flatMap_cons]

end

theorem sizeOf_lt_of_mem_children {e c : Expr} (h : c ∈ e.children) : sizeOf c < sizeOf e := by
  cases e with
  | atom => simp [children] at h
  | unary op a o =>
    simp only [children, List.mem_singleton] at h
    subst h
    simp
    omega
  | binary op a b o =>
    simp only [children, List.mem_cons, List.not_mem_nil, or_false] at h
    rcases h with rfl | rfl <;> simp <;> omega
  | filter a p b o =>
    simp only [children, List.mem_cons, List.not_mem_nil, or_false] at h
    rcases h with rfl | rfl | rfl <;> simp <;> omega
  | list as o =>
    have := List.sizeOf_lt_of_mem h
    simp only [children] at this
    simp
    omega
  | hash ps o =>
    obtain ⟨p, hp, rfl⟩ := List.mem_map.mp h
    have := List.sizeOf_lt_of_mem hp
    obtain ⟨k, a⟩ := p
    simp at this ⊢
    omega
  | call f as o =>
    have := List.sizeOf_lt_of_mem h
    simp only [children] at this
    simp
    omega

/-- All nodes of a node of a tree are nodes of the tree. -/
theorem walk_subset {root e : Expr} (h : e ∈ root.walk) : e.walk ⊆ root.walk := by
  rw [walk_eq root] at h ⊢
  rcases List.mem_cons.mp h with rfl | h
  · rw [← walk_eq]
    exact List.Subset.refl _
  · obtain ⟨c, hc, he⟩ := List.mem_flatMap.mp h
    intro n hn
    exact List.mem_cons_of_mem _ (List.mem_flatMap.mpr ⟨c, hc, walk_subset he hn⟩)
termination_by sizeOf root
decreasing_by exact sizeOf_lt_of_mem_children hc

theorem mem_walk_self (e : Expr) : e ∈ e.walk := by
  rw [walk_eq]
  exact List.mem_cons_self

theorem mem_walk_of_mem_children {root e c : Expr} (h : e ∈ root.walk) (hc : c ∈ e.children) :
    c ∈ root.walk := by
  refine walk_subset h ?_
  rw [walk_eq]
  exact List.mem_cons_of_mem _ (List.mem_flatMap.mpr ⟨c, hc, mem_walk_self c⟩)

/-- Two trees are the same node of a tree. -/
def Shared (root b c : Expr) : Prop :=
  b = c ∧ b ∈ root.walk

theorem height_le_heightList {a : Expr} {as : List Expr} (h : a ∈ as) :
    a.height ≤ heightList as := by
  induction as with
  | nil => cases h
  | cons b as ih =>
    rw [heightList]
    rcases List.mem_cons.mp h with rfl | h
    · exact Nat.le_max_left _ _
    · exact Nat.le_trans (ih h) (Nat.le_max_right _ _)

theorem heightPairs_eq (ps : List (Text × Expr)) :
    heightPairs ps = heightList (ps.map Prod.snd) := by
  induction ps with
  | nil => rfl
  | cons p ps ih => rw [heightPairs, ih, List.map_cons, heightList]

/-- A node is higher than those below it. -/
theorem height_lt_of_mem_children {e c : Expr} (h : c ∈ e.children) : c.height < e.height := by
  have hlist : ∀ {as : List Expr}, c ∈ as → c.height < heightList as + 1 :=
    fun h => Nat.lt_succ_of_le (height_le_heightList h)
  cases e with
  | atom => cases h
  | unary op a o =>
    obtain rfl := List.mem_singleton.mp h
    exact Nat.lt_succ_self _
  | binary op a b o =>
    rw [height]
    simp only [children, List.mem_cons, List.not_mem_nil, or_false] at h
    rcases h with rfl | rfl <;> omega
  | filter a p b o =>
    rw [height]
    simp only [children, List.mem_cons, List.not_mem_nil, or_false] at h
    rcases h with rfl | rfl | rfl <;> omega
  | list as o => exact hlist h
  | hash ps o =>
    rw [height, heightPairs_eq]
    exact hlist h
  | call f as o => exact hlist h

mutual

/-- The walk over a tree, with each key of a hash before its value. -/
def visits : Expr → List Visit
  | .atom a offset => [.node (.atom a offset)]
  | .unary op a offset => .node (.unary op a offset) :: visits a
  | .binary op a b offset => .node (.binary op a b offset) :: (visits a ++ visits b)
  | .filter a p b offset => .node (.filter a p b offset) :: (visits a ++ visits p ++ visits b)
  | .list as offset => .node (.list as offset) :: visitsList as
  | .hash ps offset => .node (.hash ps offset) :: visitsPairs ps
  | .call name as offset => .node (.call name as offset) :: visitsList as

/-- The walk over some trees. -/
def visitsList : List Expr → List Visit
  | [] => []
  | a :: as => visits a ++ visitsList as

/-- The walk over some keyed trees. -/
def visitsPairs : List (Text × Expr) → List Visit
  | [] => []
  | (key, a) :: ps => .key key :: (visits a ++ visitsPairs ps)

end

mutual

/-- The nodes that a walk comes across are all nodes, each before those below it. -/
theorem filterMap_visits : ∀ e : Expr, e.visits.filterMap Visit.node? = e.walk
  | .atom _ _ => rfl
  | .unary _ a _ => by
    simp [visits, walk, Visit.node?, filterMap_visits a]
  | .binary _ a b _ => by
    simp [visits, walk, Visit.node?, filterMap_visits a, filterMap_visits b]
  | .filter a p b _ => by
    simp [visits, walk, Visit.node?, filterMap_visits a, filterMap_visits p, filterMap_visits b]
  | .list as _ => by
    simp [visits, walk, Visit.node?, filterMap_visitsList as]
  | .hash ps _ => by
    simp [visits, walk, Visit.node?, filterMap_visitsPairs ps]
  | .call _ as _ => by
    simp [visits, walk, Visit.node?, filterMap_visitsList as]

theorem filterMap_visitsList :
    ∀ as : List Expr, (visitsList as).filterMap Visit.node? = walkList as
  | [] => rfl
  | a :: as => by
    simp [visitsList, walkList, filterMap_visits a, filterMap_visitsList as]

theorem filterMap_visitsPairs :
    ∀ ps : List (Text × Expr), (visitsPairs ps).filterMap Visit.node? = walkPairs ps
  | [] => rfl
  | (_, a) :: ps => by
    rw [visitsPairs, walkPairs, List.filterMap_cons_none rfl, List.filterMap_append,
      filterMap_visits a, filterMap_visitsPairs ps]

end

/-- What the nodes and keys of a tree say, in the order of the walk. -/
def words (e : Expr) : List Word :=
  e.visits.flatMap Visit.words

/-- What some trees say one after the other. -/
def wordsList (as : List Expr) : List Word :=
  as.flatMap words

/-- What some keyed trees say one after the other, each key before its tree. -/
def wordsPairs (ps : List (Text × Expr)) : List Word :=
  ps.flatMap fun p => .name p.1 :: p.2.words

@[simp] theorem wordsList_nil : wordsList [] = [] := rfl

@[simp] theorem wordsList_cons (a : Expr) (as : List Expr) :
    wordsList (a :: as) = a.words ++ wordsList as :=
  List.flatMap_cons

@[simp] theorem wordsPairs_nil : wordsPairs [] = [] := rfl

@[simp] theorem wordsPairs_cons (key : Text) (a : Expr) (ps : List (Text × Expr)) :
    wordsPairs ((key, a) :: ps) = .name key :: (a.words ++ wordsPairs ps) := by
  simp [wordsPairs]

theorem flatMap_visitsList (as : List Expr) :
    (visitsList as).flatMap Visit.words = wordsList as := by
  induction as with
  | nil => rfl
  | cons a as ih => rw [visitsList, List.flatMap_append, ih, wordsList_cons, words]

theorem flatMap_visitsPairs (ps : List (Text × Expr)) :
    (visitsPairs ps).flatMap Visit.words = wordsPairs ps := by
  induction ps with
  | nil => rfl
  | cons p ps ih =>
    obtain ⟨key, a⟩ := p
    rw [visitsPairs, List.flatMap_cons, List.flatMap_append, ih, wordsPairs_cons, words]
    rfl

section
variable (op : UnaryOp) (op' : BinaryOp) (a p b : Expr) (o : Nat)

@[simp] theorem words_atom (a : Atom) : words (.atom a o) = a.words :=
  List.append_nil _

@[simp] theorem words_unary : words (.unary op a o) = a.words := rfl

@[simp] theorem words_binary : words (.binary op' a b o) = a.words ++ b.words := by
  simp [words, visits, Visit.words]

@[simp] theorem words_filter :
    words (.filter a p b o) = a.words ++ (p.words ++ b.words) := by
  simp [words, visits, Visit.words]

@[simp] theorem words_list (as : List Expr) : words (.list as o) = wordsList as :=
  flatMap_visitsList as

@[simp] theorem words_hash (ps : List (Text × Expr)) : words (.hash ps o) = wordsPairs ps :=
  flatMap_visitsPairs ps

@[simp] theorem words_call (name : Text) (as : List Expr) :
    words (.call name as o) = .name name :: wordsList as :=
  congrArg (_ :: ·) (flatMap_visitsList as)

end

mutual

/-- Offsets say nothing. -/
theorem words_bare : ∀ e : Expr, e.bare.words = e.words
  | .atom _ _ => by simp [bare]
  | .unary _ a _ => by simp [bare, words_bare a]
  | .binary _ a b _ => by simp [bare, words_bare a, words_bare b]
  | .filter a p b _ => by simp [bare, words_bare a, words_bare p, words_bare b]
  | .list as _ => by simp [bare, wordsList_bare as]
  | .hash ps _ => by simp [bare, wordsPairs_bare ps]
  | .call _ as _ => by simp [bare, wordsList_bare as]

theorem wordsList_bare : ∀ as : List Expr, wordsList (bareList as) = wordsList as
  | [] => by rw [bareList]
  | a :: as => by simp [bareList, words_bare a, wordsList_bare as]

theorem wordsPairs_bare : ∀ ps : List (Text × Expr), wordsPairs (barePairs ps) = wordsPairs ps
  | [] => by rw [barePairs]
  | (_, a) :: ps => by simp [barePairs, words_bare a, wordsPairs_bare ps]

end

end Expr
end JsonQuery
