/-
The functions that every query can call.

A body asks its arguments for the parts that it works on, and fails in a way of its own where an
argument has no such part.  Calls are checked against the signatures first, so that this never
happens to a query.

* `Builtin.table` — the functions with their names;
* `Builtin.need` — a part of an argument that a body cannot do without;
* `Builtin.keyed` — the keys of the items of an array, or the first reason that they cannot be
  ordered.
-/
import JsonQuery.Function
import JsonQuery.Function.SortKey
import JsonQuery.Json.Writer
import JsonQuery.Json.Reader
import JsonQuery.Number.Sum

namespace JsonQuery
namespace Builtin

/-- What a built-in function does. -/
abbrev Body := Call → List Value → Run Value

/-- A body for one argument. -/
def unary (f : Call → Value → Run Value) : Body
  | call, x :: _ => f call x
  | _, [] => Run.fail (.host .missingArgument)

/-- A body for two arguments. -/
def binary (f : Call → Value → Value → Run Value) : Body
  | call, x :: y :: _ => f call x y
  | _, _ => Run.fail (.host .missingArgument)

/-! ### Parts of arguments -/

/-- The number that a value is. -/
def number? : Value → Option Number
  | .num x => some x
  | _ => none

/-- The text that a value is. -/
def text? : Value → Option Text
  | .str t => some t
  | _ => none

/-- The items of a value that is an array. -/
def items? : Value → Option (List Value)
  | .arr items => some items
  | _ => none

/-- The entries of a value that is an object. -/
def entries? : Value → Option (Entries Value)
  | .obj entries => some entries
  | _ => none

/-- The body of a value that is a reference. -/
def body? : Value → Option Expr
  | .ref body _ => some body
  | _ => none

/-- The failure of an operation on a value of a kind that it is not for. -/
def unsupported {α : Type} (kind : Kind) : Run α :=
  Run.fail (.host (.unsupportedOperand kind.name))

/-- A part of a value that a body cannot do without. -/
def need {α : Type} (part : Value → Option α) (x : Value) : Run α :=
  match part x with
  | some a => pure a
  | none => unsupported x.kind

/-- A natural number as a value. -/
def ofNat (n : Nat) : Value :=
  .num ((Number.ofInt? n).getD Number.zero)

/-! ### Numbers -/

/-- The absolute value. -/
def abs : Body := unary fun _ x => do
  let n ← need number? x
  pure (.num n.abs)

/-- A number rounded up. -/
def ceil : Body := unary fun _ x => do
  let n ← need number? x
  pure (.num n.ceil)

/-- A number rounded down. -/
def floor : Body := unary fun _ x => do
  let n ← need number? x
  pure (.num n.floor)

/-- The numbers in an array. -/
def numbers (x : Value) : Run (List Number) := do
  let items ← need items? x
  items.mapM (need number?)

/-- A number, unless a sum became too large on the way to it. -/
def ofSum : Option Number → Run Value
  | some x => pure (.num x)
  | none => Run.fail .sumOverflow

/-- The mean of the numbers in an array, null if there are none. -/
def avg : Body := unary fun _ x => do
  let xs ← numbers x
  if xs.isEmpty then pure .null else ofSum (Number.average? xs)

/-- The sum of the numbers in an array. -/
def sum : Body := unary fun _ x => do
  let xs ← numbers x
  ofSum (Number.sum? xs)

/-! ### Texts and parts of values -/

/-- Whether a value is among some items. -/
def isItem (shared : Sharing) (y : Value) : List Value → Run Bool
  | [] => pure false
  | item :: items => do if ← Run.equal shared item y then pure true else isItem shared y items

/-- Whether a string holds another, or an array an item. -/
def contains : Body := binary fun call x y =>
  match x with
  | .str t => pure (.bool ((text? y).any fun part => Text.occursIn part t))
  | x => do
    let items ← need items? x
    let b ← isItem call.shared y items
    pure (.bool b)

/-- Whether a string ends with another. -/
def endsWith : Body := binary fun _ x y => do
  let t ← need text? x
  let part ← need text? y
  pure (.bool (part.isSuffixOf t))

/-- Whether a string starts with another. -/
def startsWith : Body := binary fun _ x y => do
  let t ← need text? x
  let part ← need text? y
  pure (.bool (part.isPrefixOf t))

/-- The strings of an array, with a string between each two. -/
def join : Body := binary fun _ x y => do
  let glue ← need text? x
  let items ← need items? y
  let ts ← items.mapM (need text?)
  pure (.str (List.intercalate glue ts))

/-- The keys of an object. -/
def keys : Body := unary fun _ x => do
  let entries ← need entries? x
  pure (.arr (entries.keys.map .str))

/-- The values of an object. -/
def values : Body := unary fun _ x => do
  let entries ← need entries? x
  pure (.arr (entries.map Prod.snd))

/-- How many code points, items or entries there are. -/
def length : Body := unary fun _ x => do
  let n ← need Data.length? x
  pure (ofNat n)

/-- The results of an expression on the items of an array. -/
def map : Body := binary fun call x y => do
  let body ← need body? x
  let items ← need items? y
  let results ← items.mapM (call.evaluate body)
  pure (.arr results)

/-! ### Order -/

/-- The keys of items: the results of an expression, which must all be numbers or all be
strings.  `expected` is the kind of the keys before. -/
def keyed (name : Text) (call : Call) (body : Expr) :
    (expected : Option Kind) → List Value → Run Keyed
  | _, [] => pure []
  | expected, item :: items => do
    let result ← call.evaluate body item
    match SortKey.ofValue? result with
    | none =>
      Run.fail (.problem (.invalidSortKey name (Text.ofString result.kind.name)) call.offset)
    | some key =>
      if (expected.getD key.kind) = key.kind then do
        let rest ← keyed name call body (some key.kind) items
        pure ((key, item) :: rest)
      else
        Run.fail (.problem (.invalidSortKey name
          ((expected.getD key.kind).name ++ " and " ++ Text.ofString key.kind.name))
          call.offset)

/-- The first kind of keys that cannot be compared with the first key. -/
def strayKind? : Keyed → Option Kind
  | [] => none
  | (key, _) :: items =>
    (items.find? fun item => item.1.kind != key.kind).map fun item => item.1.kind

/-- What is made of items by comparing their keys. -/
def ordering (f : Keyed → Value) (items : Keyed) : Run Value :=
  match strayKind? items with
  | none => pure (f items)
  | some kind => unsupported kind

/-- A body that orders the items of an array by the results of an expression. -/
def byKey (name : Text) (f : Keyed → Value) : Body := binary fun call x y => do
  let items ← need items? x
  let body ← need body? y
  let items ← keyed name call body none items
  ordering f items

/-- An item that is its own key. -/
def selfKeyed (item : Value) : Run (SortKey × Value) := do
  let key ← need SortKey.ofValue? item
  pure (key, item)

/-- A body that orders the items of an array, which are their own keys. -/
def bySelf (f : Keyed → Value) : Body := unary fun _ x => do
  let items ← need items? x
  let items ← items.mapM selfKeyed
  ordering f items

/-- The greatest of some items, null if there are none. -/
def greatest (items : Keyed) : Value :=
  (greatestByKey items).getD .null

/-- The least of some items, null if there are none. -/
def least (items : Keyed) : Value :=
  (leastByKey items).getD .null

/-- Items in order. -/
def sorted (items : Keyed) : Value :=
  .arr (sortByKeys items)

/-! ### Other functions -/

/-- The entries of objects one after the other. -/
def merge : Body := fun _ args => do
  let parts ← args.mapM (need entries?)
  pure (.obj (parts.foldl Entries.update []))

/-- The first argument that is not null. -/
def notNull : Body := fun _ args =>
  pure ((args.find? fun x => !x.isNull).getD .null)

/-- A string or an array backwards. -/
def reverse : Body := unary fun _ x =>
  match x with
  | .str t => pure (.str t.reverse)
  | x => do
    let items ← need items? x
    pure (.arr items.reverse)

/-- An array as it is, and any other value as the only item of one. -/
def toArray : Body := unary fun _ x =>
  match x with
  | .arr items => pure (.arr items)
  | x => pure (.arr [x])

/-- A string as it is, and any other value as its JSON text. -/
def toString : Body := unary fun call x =>
  match x with
  | .str t => pure (.str t)
  | .num x => pure (.str x.toText)
  | x =>
    match x.render none with
    | .ok t => pure (.str t)
    | .error .tooDeep => Run.fail .exhausted
    | .error _ =>
      Run.fail (.problem
        (.invalidType "to_string" 0 "JSON value" (Text.ofString x.kind.name)) call.offset)

/-- The decimal that a text is, with its sign, if all of it is a JSON number. -/
def decimal? (t : Text) : Option (Bool × Decimal) :=
  let (negative, body) :=
    match t with
    | .scalar '-' :: body => (true, body)
    | body => (false, body)
  match Reader.takeWhole body with
  | none => none
  | some (whole, rest) =>
    let (fraction, rest) := (Reader.takeFraction rest).getD ([], rest)
    let (e, rest) := (Reader.takeExponent rest).getD (0, rest)
    if rest.isEmpty then
      some (negative, ⟨Text.digitsValue (whole ++ fraction), e - fraction.length⟩)
    else
      none

/-- A number as it is, a string that is a JSON number as that number, and null for what is
neither. -/
def toNumber : Body := unary fun _ x =>
  match x with
  | .num x => pure (.num x)
  | .str t =>
    match decimal? t with
    | some (negative, d) =>
      match d.toFloat negative with
      | .finite x => pure (.num x)
      | _ => pure .null
    | none => pure .null
  | _ => pure .null

/-- The name of the kind of a value. -/
def kindName : Body := unary fun _ x =>
  pure (.str (Text.ofString x.kind.name))

/-- A signature for a fixed number of arguments. -/
def fixed (inputs : List ParameterType) (output : ParameterType) : Signature :=
  ⟨inputs, none, output⟩

/-- A signature for at least one argument of a type. -/
def oneOrMore (input output : ParameterType) : Signature :=
  ⟨[input], some input, output⟩

/-- Arrays whose items are all numbers or all strings. -/
def orderable : ParameterType :=
  .union [.one .arrayNumber, .one .arrayString]

/-- Arrays or strings. -/
def arrayOrString : ParameterType :=
  .union [.one .array, .one .string]

/-- The functions with their names, in alphabetical order. -/
def table : List (String × Function) :=
  [("abs", ⟨fixed [.one .number] (.one .number), abs⟩),
    ("avg", ⟨fixed [.one .arrayNumber] (.one .number), avg⟩),
    ("ceil", ⟨fixed [.one .number] (.one .number), ceil⟩),
    ("contains", ⟨fixed [arrayOrString, .one .any] (.one .boolean), contains⟩),
    ("ends_with", ⟨fixed [.one .string, .one .string] (.one .boolean), endsWith⟩),
    ("floor", ⟨fixed [.one .number] (.one .number), floor⟩),
    ("join", ⟨fixed [.one .string, .one .arrayString] (.one .string), join⟩),
    ("keys", ⟨fixed [.one .object] (.one .array), keys⟩),
    ("length",
      ⟨fixed [.union [.one .string, .one .array, .one .object]] (.one .number), length⟩),
    ("map", ⟨fixed [.one .expref, .one .array] (.one .array), map⟩),
    ("max", ⟨fixed [orderable] (.one .any), bySelf greatest⟩),
    ("max_by", ⟨fixed [.one .array, .one .expref] (.one .any), byKey "max_by" greatest⟩),
    ("merge", ⟨oneOrMore (.one .object) (.one .object), merge⟩),
    ("min", ⟨fixed [orderable] (.one .any), bySelf least⟩),
    ("min_by", ⟨fixed [.one .array, .one .expref] (.one .any), byKey "min_by" least⟩),
    ("not_null", ⟨oneOrMore (.one .any) (.one .any), notNull⟩),
    ("reverse", ⟨fixed [arrayOrString] arrayOrString, reverse⟩),
    ("sort", ⟨fixed [orderable] (.one .array), bySelf sorted⟩),
    ("sort_by", ⟨fixed [.one .array, .one .expref] (.one .array), byKey "sort_by" sorted⟩),
    ("starts_with", ⟨fixed [.one .string, .one .string] (.one .boolean), startsWith⟩),
    ("sum", ⟨fixed [.one .arrayNumber] (.one .number), sum⟩),
    ("to_array", ⟨fixed [.one .any] (.one .array), toArray⟩),
    ("to_number", ⟨fixed [.one .any] (.one .number), toNumber⟩),
    ("to_string", ⟨fixed [.one .any] (.one .string), toString⟩),
    ("type", ⟨fixed [.one .any] (.one .string), kindName⟩),
    ("values", ⟨fixed [.one .object] (.one .array), values⟩)]

/-- The functions as entries of a map. -/
def entries : Entries Function :=
  table.map fun (name, f) => (Text.ofString name, f)

end Builtin
end JsonQuery
