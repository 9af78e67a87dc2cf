/-
The values that documents hold and queries compute.

`Data ρ` is a JSON value that may also be, or hold, references: unevaluated bodies of type `ρ`
together with the value that was current when they were written down.  A document has none, so
`Json` is `Data Empty`.

* `Data.isTruthy`, `Data.getField`, `Data.getIndex` — what queries ask of a value;
* `Data.toJson?_mapRef` — a document put among the values comes back as it was;
* `Data.DistinctKeys` — no object at any depth has a key twice.
-/
import JsonQuery.Entries
import JsonQuery.Number

namespace JsonQuery

/-- A JSON value with references.  The entries of an object keep their order. -/
inductive Data (ρ : Type) where
  | null
  | bool (b : Bool)
  | num (x : Number)
  | str (t : Text)
  | arr (items : List (Data ρ))
  | obj (entries : List (Text × Data ρ))
  | ref (body : ρ) (context : Data ρ)
  deriving Inhabited

/-- A JSON value. -/
abbrev Json := Data Empty

/-- The kinds of values. -/
inductive Kind where
  | null
  | boolean
  | number
  | string
  | array
  | object
  | expref
  deriving DecidableEq

/-- The name of a kind. -/
def Kind.name : Kind → String
  | .null => "null"
  | .boolean => "boolean"
  | .number => "number"
  | .string => "string"
  | .array => "array"
  | .object => "object"
  | .expref => "expref"

namespace Data
variable {ρ σ : Type}

/-- The kind of a value. -/
def kind : Data ρ → Kind
  | .null => .null
  | .bool _ => .boolean
  | .num _ => .number
  | .str _ => .string
  | .arr _ => .array
  | .obj _ => .object
  | .ref _ _ => .expref

/-- Whether a value counts as true: all do but null, false and what is empty. -/
def isTruthy : Data ρ → Bool
  | .null => false
  | .bool b => b
  | .str t => !t.isEmpty
  | .arr items => !items.isEmpty
  | .obj entries => !entries.isEmpty
  | .num _ => true
  | .ref _ _ => true

/-- Whether a value is null. -/
def isNull : Data ρ → Bool
  | .null => true
  | _ => false

/-- Whether a value is a number without a fraction. -/
def isWholeNumber : Data ρ → Bool
  | .num x => x.isWhole
  | _ => false

/-- The value of a field, null if there is none. -/
def getField (name : Text) : Data ρ → Data ρ
  | .obj entries => (Entries.get? entries name).getD .null
  | _ => .null

/-- The item at an index, which counts from the end when it is negative; null if there is
none. -/
def getIndex (index : Int) : Data ρ → Data ρ
  | .arr items =>
    let place := if index < 0 then index + items.length else index
    if place < 0 then .null else items[place.toNat]?.getD .null
  | _ => .null

/-- How many items an array has, entries an object and code points a string. -/
def length? : Data ρ → Option Nat
  | .str t => some t.length
  | .arr items => some items.length
  | .obj entries => some entries.length
  | _ => none

mutual

/-- A value with other bodies in its references. -/
def mapRef (f : ρ → σ) : Data ρ → Data σ
  | .null => .null
  | .bool b => .bool b
  | .num x => .num x
  | .str t => .str t
  | .arr items => .arr (mapRefItems f items)
  | .obj entries => .obj (mapRefEntries f entries)
  | .ref body context => .ref (f body) (mapRef f context)

/-- Items with other bodies in their references. -/
def mapRefItems (f : ρ → σ) : List (Data ρ) → List (Data σ)
  | [] => []
  | x :: xs => mapRef f x :: mapRefItems f xs

/-- Entries with other bodies in their references. -/
def mapRefEntries (f : ρ → σ) : List (Text × Data ρ) → List (Text × Data σ)
  | [] => []
  | (k, x) :: xs => (k, mapRef f x) :: mapRefEntries f xs

end

mutual

theorem mapRef_mapRef {τ : Type} (f : ρ → σ) (g : σ → τ) :
    ∀ x : Data ρ, (x.mapRef f).mapRef g = x.mapRef fun b => g (f b)
  | .null | .bool _ | .num _ | .str _ => rfl
  | .arr xs => by simp only [mapRef, mapRefItems_mapRefItems f g xs]
  | .obj es => by simp only [mapRef, mapRefEntries_mapRefEntries f g es]
  | .ref b x => by simp only [mapRef, mapRef_mapRef f g x]

theorem mapRefItems_mapRefItems {τ : Type} (f : ρ → σ) (g : σ → τ) :
    ∀ xs : List (Data ρ), mapRefItems g (mapRefItems f xs) = mapRefItems (fun b => g (f b)) xs
  | [] => rfl
  | x :: xs => by simp only [mapRefItems, mapRef_mapRef f g x, mapRefItems_mapRefItems f g xs]

theorem mapRefEntries_mapRefEntries {τ : Type} (f : ρ → σ) (g : σ → τ) :
    ∀ es : List (Text × Data ρ),
      mapRefEntries g (mapRefEntries f es) = mapRefEntries (fun b => g (f b)) es
  | [] => rfl
  | (_, x) :: es => by
    simp only [mapRefEntries, mapRef_mapRef f g x, mapRefEntries_mapRefEntries f g es]

end

/-- A document among the values. -/
def ofJson (j : Json) : Data ρ :=
  j.mapRef Empty.elim

mutual

/-- A value that holds no reference, as a document. -/
def toJson? : Data ρ → Option Json
  | .null => some .null
  | .bool b => some (.bool b)
  | .num x => some (.num x)
  | .str t => some (.str t)
  | .arr items => (itemsToJson? items).map .arr
  | .obj entries => (entriesToJson? entries).map .obj
  | .ref _ _ => none

/-- Items without references, as documents. -/
def itemsToJson? : List (Data ρ) → Option (List Json)
  | [] => some []
  | x :: xs => do
    let y ← toJson? x
    let ys ← itemsToJson? xs
    some (y :: ys)

/-- Entries without references, as those of a document. -/
def entriesToJson? : List (Text × Data ρ) → Option (List (Text × Json))
  | [] => some []
  | (k, x) :: xs => do
    let y ← toJson? x
    let ys ← entriesToJson? xs
    some ((k, y) :: ys)

end

/-- Whether a value is or holds a reference. -/
def hasRef (d : Data ρ) : Bool :=
  d.toJson?.isNone

mutual

theorem toJson?_mapRef (f : Empty → ρ) : ∀ j : Json, (j.mapRef f).toJson? = some j
  | .null | .bool _ | .num _ | .str _ => rfl
  | .arr items => by simp [mapRef, toJson?, itemsToJson?_mapRefItems f items]
  | .obj entries => by simp [mapRef, toJson?, entriesToJson?_mapRefEntries f entries]
  | .ref body _ => body.elim

theorem itemsToJson?_mapRefItems (f : Empty → ρ) :
    ∀ js : List Json, itemsToJson? (mapRefItems f js) = some js
  | [] => rfl
  | j :: js => by
    simp [mapRefItems, itemsToJson?, toJson?_mapRef f j, itemsToJson?_mapRefItems f js]

theorem entriesToJson?_mapRefEntries (f : Empty → ρ) :
    ∀ js : List (Text × Json), entriesToJson? (mapRefEntries f js) = some js
  | [] => rfl
  | (k, j) :: js => by
    simp [mapRefEntries, entriesToJson?, toJson?_mapRef f j,
      entriesToJson?_mapRefEntries f js]

end

mutual

/-- How many arrays and objects stand one inside the other.  What a reference holds does not
count. -/
def height : Data ρ → Nat
  | .arr items => heightItems items + 1
  | .obj entries => heightEntries entries + 1
  | _ => 0

/-- The greatest height of some items. -/
def heightItems : List (Data ρ) → Nat
  | [] => 0
  | x :: xs => max (height x) (heightItems xs)

/-- The greatest height of some entries. -/
def heightEntries : List (Text × Data ρ) → Nat
  | [] => 0
  | (_, x) :: xs => max (height x) (heightEntries xs)

end

mutual

/-- No object in a value has a key twice. -/
def DistinctKeys : Data ρ → Prop
  | .arr items => DistinctKeysItems items
  | .obj entries => (Entries.keys entries).Nodup ∧ DistinctKeysEntries entries
  | .ref _ context => DistinctKeys context
  | _ => True

/-- No object in some items has a key twice. -/
def DistinctKeysItems : List (Data ρ) → Prop
  | [] => True
  | x :: xs => DistinctKeys x ∧ DistinctKeysItems xs

/-- No object in some entries has a key twice. -/
def DistinctKeysEntries : List (Text × Data ρ) → Prop
  | [] => True
  | (_, x) :: xs => DistinctKeys x ∧ DistinctKeysEntries xs

end

end Data
end JsonQuery
