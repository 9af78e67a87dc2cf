/-
Data of the program that embeds the queries.

The embedding program hands in data of its own types and takes results in them.  Its data are
richer than values: numbers are integers of any size or floating-point values, maps may have any
keys, and there are types that no value corresponds to.

* `Host.toValue` — the value of such data, or the first part that has none;
* `Host.read` — the same for data that are not nested too deeply;
* `Value.toHost` — a value as such data, in which whole numbers are integers.
-/
import JsonQuery.Expr
import JsonQuery.Json.Document
import JsonQuery.Nesting

namespace JsonQuery

/-- Data of the embedding program. -/
inductive Host where
  | null
  | bool (b : Bool)
  | num (n : Numeral)
  | str (t : Text)
  /-- Raw bytes, which no value corresponds to but which may say a number. -/
  | bytes (content : List UInt8)
  | list (items : List Host)
  | tuple (items : List Host)
  | dict (entries : List (Host × Host))
  /-- A value that is passed on as it is. -/
  | value (v : Value)
  /-- A reference that is passed on as it is. -/
  | ref (body : Expr) (context : Value)
  /-- Something of a type that no value corresponds to. -/
  | foreign (typeName : String)
  deriving Inhabited

/-- Why data have no value. -/
inductive ConversionError where
  | numeral (e : NumeralError)
  | keyNotText (typeName : String)
  | unsupported (typeName : String)
  deriving DecidableEq

/-- The error in words. -/
def ConversionError.message : ConversionError → Text
  | .numeral e => e.message
  | .keyNotText typeName => "object keys must be strings, got " ++ Text.ofString typeName
  | .unsupported typeName => "cannot convert " ++ typeName ++ " to a JMESPath value"

/-- The class of the error. -/
def ConversionError.errorClass : ConversionError → ErrorClass
  | .numeral e => e.errorClass
  | .keyNotText _ => .typeError
  | .unsupported _ => .typeError

/-- Why data are not taken in. -/
inductive HostError where
  | tooDeep
  | conversion (e : ConversionError)

namespace Host

/-- The name of the type of data. -/
def typeName : Host → String
  | .null => "NoneType"
  | .bool _ => "bool"
  | .num (.int _) => "int"
  | .num (.float _) => "float"
  | .str _ => "str"
  | .bytes _ => "bytes"
  | .list _ => "list"
  | .tuple _ => "tuple"
  | .dict _ => "dict"
  | .value _ => "Value"
  | .ref _ _ => "ExpressionRef"
  | .foreign typeName => typeName

/-- The text of a key. -/
def keyText : Host → Except ConversionError Text
  | .str t => .ok t
  | key => .error (.keyNotText key.typeName)

mutual

/-- The value of data.  The first part in their order that has none is told. -/
def toValue : Host → Except ConversionError Value
  | .null => .ok .null
  | .bool b => .ok (.bool b)
  | .num n => (n.toNumber.map .num).mapError .numeral
  | .str t => .ok (.str t)
  | .bytes _ => .error (.unsupported "bytes")
  | .list items => (itemsToValue items).map .arr
  | .tuple items => (itemsToValue items).map .arr
  | .dict entries => (entriesToValue entries).map .obj
  | .value v => .ok v
  | .ref body context => .ok (.ref body context)
  | .foreign typeName => .error (.unsupported typeName)

/-- The values of some items. -/
def itemsToValue : List Host → Except ConversionError (List Value)
  | [] => .ok []
  | x :: xs => do
    let y ← toValue x
    let ys ← itemsToValue xs
    .ok (y :: ys)

/-- The values of some entries. -/
def entriesToValue : List (Host × Host) → Except ConversionError (List (Text × Value))
  | [] => .ok []
  | (k, x) :: xs => do
    let key ← keyText k
    let y ← toValue x
    let ys ← entriesToValue xs
    .ok ((key, y) :: ys)

end

mutual

/-- How many lists and maps stand one inside the other.  What is passed on as it is does not
count. -/
def height : Host → Nat
  | .list items => heightItems items + 1
  | .tuple items => heightItems items + 1
  | .dict entries => heightEntries entries + 1
  | _ => 0

/-- The greatest height of some items. -/
def heightItems : List Host → Nat
  | [] => 0
  | x :: xs => max (height x) (heightItems xs)

/-- The greatest height of some entries. -/
def heightEntries : List (Host × Host) → Nat
  | [] => 0
  | (_, x) :: xs => max (height x) (heightEntries xs)

end

/-- The value of data that are nested no deeper than the limit. -/
def read (h : Host) : Except HostError Value :=
  if nestingLimit < h.height then .error .tooDeep
  else h.toValue.mapError .conversion

mutual

/-- A document as data. -/
def ofDocument : Document → Host
  | .null => .null
  | .bool b => .bool b
  | .num n => .num n
  | .str t => .str t
  | .arr items => .list (itemsOfDocument items)
  | .obj entries => .dict (entriesOfDocument entries)

/-- The items of a document as data. -/
def itemsOfDocument : List Document → List Host
  | [] => []
  | d :: ds => ofDocument d :: itemsOfDocument ds

/-- The entries of a document as data. -/
def entriesOfDocument : List (Text × Document) → List (Host × Host)
  | [] => []
  | (k, d) :: ds => (.str k, ofDocument d) :: entriesOfDocument ds

end

end Host

mutual

/-- A value as data of the embedding program. -/
def Value.toHost : Value → Host
  | .null => .null
  | .bool b => .bool b
  | .num x => .num x.toNumeral
  | .str t => .str t
  | .arr items => .list (Value.itemsToHost items)
  | .obj entries => .dict (Value.entriesToHost entries)
  | .ref body context => .ref body context

/-- Items as data of the embedding program. -/
def Value.itemsToHost : List Value → List Host
  | [] => []
  | x :: xs => Value.toHost x :: Value.itemsToHost xs

/-- Entries as data of the embedding program. -/
def Value.entriesToHost : List (Text × Value) → List (Host × Host)
  | [] => []
  | (k, x) :: xs => (.str k, Value.toHost x) :: Value.entriesToHost xs

end

end JsonQuery
