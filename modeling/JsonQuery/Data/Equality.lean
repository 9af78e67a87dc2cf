/-
When two values are equal.

Numbers are equal by value, so the two zeros are; objects are equal when they have the same keys
with equal values, in whatever order; references are equal when their bodies and the values they
hold are.

* `Data.same` — equality of values, given an equality of the bodies of references;
* `Data.equal?` — how equality is found out, within a number of frames of the stack;
* `Data.frames` — the frames that suffice to compare a value with any other;
* `Data.beq_iff` — whether two values are built alike can be decided;
* `Json.same`, `Json.equal?` — equality of documents.
-/
import JsonQuery.Data

namespace JsonQuery
namespace Data
variable {ρ : Type}

mutual

/-- Whether two values are equal.  Two objects are when they have equally many entries and each
of the first finds its equal in the second. -/
def same (sameBody : ρ → ρ → Bool) : Data ρ → Data ρ → Bool
  | .null, .null => true
  | .bool a, .bool b => a == b
  | .num x, .num y => x.same y
  | .str s, .str t => s == t
  | .arr xs, .arr ys => sameItems sameBody xs ys
  | .obj es, .obj fs => es.length == fs.length && within sameBody es fs
  | .ref b x, .ref c y => sameBody b c && same sameBody x y
  | _, _ => false

/-- Whether two lists of items are equal one by one. -/
def sameItems (sameBody : ρ → ρ → Bool) : List (Data ρ) → List (Data ρ) → Bool
  | [], [] => true
  | x :: xs, y :: ys => same sameBody x y && sameItems sameBody xs ys
  | _, _ => false

/-- Whether each entry finds an equal value under its key. -/
def within (sameBody : ρ → ρ → Bool) :
    List (Text × Data ρ) → List (Text × Data ρ) → Bool
  | [], _ => true
  | (k, x) :: es, fs =>
    (match Entries.get? fs k with
      | some y => same sameBody x y
      | none => false) && within sameBody es fs

end

/-! ### Step by step -/

/-- The frames that the comparison of two values takes, those for their parts aside. -/
def levelFrames : Nat := 3

/-- The frames that the comparison of two references takes, those for their parts aside. -/
def referenceFrames : Nat := 5

mutual

/-- Whether two values are equal, as far as a number of frames suffices to find it out.  What is
one and the same value is not looked into.  Otherwise the parts are compared in their order, up to
the first that differ: the items of arrays before their lengths, the lengths of objects before
their entries, the bodies of references before the values that they hold. -/
def equal? (one : Data ρ → Data ρ → Bool) (bodies : Nat → ρ → ρ → Option Bool) (frames : Nat)
    (x y : Data ρ) : Option Bool :=
  if one x y then some true
  else if frames < levelFrames then none
  else match x, y with
    | .null, .null => some true
    | .bool a, .bool b => some (a == b)
    | .num a, .num b => some (a.same b)
    | .str s, .str t => some (s == t)
    | .arr xs, .arr ys => equalItems? one bodies (frames - levelFrames) xs ys
    | .obj es, .obj fs =>
      if es.length = fs.length then equalWithin? one bodies (frames - levelFrames) es fs
      else some false
    | .ref b x, .ref c y =>
      if frames < referenceFrames then none
      else do
        if ← bodies (frames - referenceFrames) b c then
          equal? one bodies (frames - referenceFrames) x y
        else some false
    | _, _ => some false

/-- Whether two lists of items are equal one by one, as far as the frames suffice. -/
def equalItems? (one : Data ρ → Data ρ → Bool) (bodies : Nat → ρ → ρ → Option Bool)
    (frames : Nat) : List (Data ρ) → List (Data ρ) → Option Bool
  | [], [] => some true
  | x :: xs, y :: ys => do
    if ← equal? one bodies frames x y then equalItems? one bodies frames xs ys else some false
  | _, _ => some false

/-- Whether each entry finds an equal value under its key, as far as the frames suffice. -/
def equalWithin? (one : Data ρ → Data ρ → Bool) (bodies : Nat → ρ → ρ → Option Bool)
    (frames : Nat) : List (Text × Data ρ) → List (Text × Data ρ) → Option Bool
  | [], _ => some true
  | (k, x) :: es, fs =>
    match Entries.get? fs k with
    | some y => do
      if ← equal? one bodies frames x y then equalWithin? one bodies frames es fs else some false
    | none => some false

end

mutual

/-- The frames that suffice to compare a value with any other, given those for the bodies of
references. -/
def frames (body : ρ → Nat) : Data ρ → Nat
  | .arr items => framesItems body items + levelFrames
  | .obj entries => framesEntries body entries + levelFrames
  | .ref b context => max (body b) (frames body context) + referenceFrames
  | _ => levelFrames

/-- The greatest number of frames that one of some items needs. -/
def framesItems (body : ρ → Nat) : List (Data ρ) → Nat
  | [] => 0
  | x :: xs => max (frames body x) (framesItems body xs)

/-- The greatest number of frames that one of some entries needs. -/
def framesEntries (body : ρ → Nat) : List (Text × Data ρ) → Nat
  | [] => 0
  | (_, x) :: xs => max (frames body x) (framesEntries body xs)

end

/-! ### Values that are built alike -/

section
variable [DecidableEq ρ]

mutual

/-- Whether two values are built alike, to the order of keys and the sign of zero. -/
def beq : Data ρ → Data ρ → Bool
  | .null, .null => true
  | .bool a, .bool b => a == b
  | .num x, .num y => x == y
  | .str s, .str t => s == t
  | .arr xs, .arr ys => beqItems xs ys
  | .obj es, .obj fs => beqEntries es fs
  | .ref b x, .ref c y => b == c && beq x y
  | _, _ => false

/-- Whether two lists of items are built alike. -/
def beqItems : List (Data ρ) → List (Data ρ) → Bool
  | [], [] => true
  | x :: xs, y :: ys => beq x y && beqItems xs ys
  | _, _ => false

/-- Whether two lists of entries are built alike. -/
def beqEntries : List (Text × Data ρ) → List (Text × Data ρ) → Bool
  | [], [] => true
  | (k, x) :: es, (l, y) :: fs => k == l && beq x y && beqEntries es fs
  | _, _ => false

end

mutual

theorem beq_iff : ∀ x y : Data ρ, beq x y = true ↔ x = y
  | .null, y | .bool _, y | .num _, y | .str _, y => by cases y <;> simp [beq]
  | .arr xs, y => by cases y <;> simp [beq, beqItems_iff xs]
  | .obj es, y => by cases y <;> simp [beq, beqEntries_iff es]
  | .ref b x, y => by cases y <;> simp [beq, beq_iff x]

theorem beqItems_iff : ∀ xs ys : List (Data ρ), beqItems xs ys = true ↔ xs = ys
  | [], ys => by cases ys <;> simp [beqItems]
  | x :: xs, ys => by cases ys <;> simp [beqItems, beq_iff x, beqItems_iff xs]

theorem beqEntries_iff : ∀ es fs : List (Text × Data ρ), beqEntries es fs = true ↔ es = fs
  | [], fs => by cases fs <;> simp [beqEntries]
  | (k, x) :: es, fs => by
    cases fs with
    | nil => simp [beqEntries]
    | cons entry fs => simp [beqEntries, beq_iff x, beqEntries_iff es, Prod.ext_iff]

end

instance : DecidableEq (Data ρ) :=
  fun x y => decidable_of_iff _ (beq_iff x y)

end

end Data

/-- Whether two documents are equal. -/
def Json.same (x y : Json) : Bool :=
  Data.same (fun body _ => body.elim) x y

/-- Whether two documents that share no part are equal, as far as a number of frames suffices to
find it out. -/
def Json.equal? (frames : Nat) (x y : Json) : Option Bool :=
  Data.equal? (fun _ _ => false) (fun _ body _ => body.elim) frames x y

end JsonQuery
