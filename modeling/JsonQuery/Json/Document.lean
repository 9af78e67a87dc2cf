/-
Documents as they are written, before their numbers are fitted to binary64.

A numeral of a document is an integer of any size or a floating-point value, which may be
infinite.  Turning a document into a value refuses the first numeral, in the order of the text,
that is no number.

* `Numeral.toNumber` — the number of a numeral;
* `Document.toData` — the value of a document.
-/
import JsonQuery.Data
import JsonQuery.Number.Decimal
import JsonQuery.Number.Loose
import JsonQuery.Number.Notation

namespace JsonQuery

attribute [local instance (2000)] instPowNat

/-- A written number: an integer, or a value with a fraction or an exponent. -/
inductive Numeral where
  | int (i : Int)
  | float (x : Float64)
  deriving DecidableEq

/-- Why a numeral is not a number. -/
inductive NumeralError where
  | notFinite (x : Float64)
  | tooLarge (i : Int)
  deriving DecidableEq

/-- The classes of errors that the embedding program tells apart. -/
inductive ErrorClass where
  | typeError
  | valueError
  deriving DecidableEq

/-- The name of a class of errors. -/
def ErrorClass.name : ErrorClass → String
  | .typeError => "TypeError"
  | .valueError => "ValueError"

namespace NumeralError

/-- Whether an integer has more digits than are written out. -/
def isUnwritable (i : Int) : Bool :=
  decide (10 ^ Text.intDigitLimit ≤ i.natAbs)

/-- The class of the error.  The one for a large integer shows the integer, and an integer that
cannot be written out is an error of its own. -/
def errorClass : NumeralError → ErrorClass
  | .notFinite _ => .typeError
  | .tooLarge i => if isUnwritable i then .valueError else .typeError

/-- The error in words. -/
def message : NumeralError → Text
  | .notFinite x => x.toText ++ " is not a JSON number"
  | .tooLarge i =>
    if isUnwritable i then
      "Exceeds the limit (" ++ Text.ofNat Text.intDigitLimit ++
        " digits) for integer string conversion; " ++
        "use sys.set_int_max_str_digits() to increase the limit"
    else
      Text.ofInt i ++ " does not fit in a double"

end NumeralError

/-- The number of a numeral. -/
def Numeral.toNumber : Numeral → Except NumeralError Number
  | .int i =>
    match Number.ofInt? i with
    | some x => .ok x
    | none => .error (.tooLarge i)
  | .float (.finite x) => .ok x
  | .float x => .error (.notFinite x)

/-- A number as a numeral: a whole one is an integer. -/
def Number.toNumeral (x : Number) : Numeral :=
  if x.isWhole then .int x.truncate else .float (.finite x)

/-- A document as it is written.  The keys of an object are distinct. -/
inductive Document where
  | null
  | bool (b : Bool)
  | num (n : Numeral)
  | str (t : Text)
  | arr (items : List Document)
  | obj (entries : List (Text × Document))
  deriving Inhabited

namespace Document

mutual

/-- The value of a document. -/
def toJson : Document → Except NumeralError Json
  | .null => .ok .null
  | .bool b => .ok (.bool b)
  | .num n => n.toNumber.map .num
  | .str t => .ok (.str t)
  | .arr items => (itemsToJson items).map .arr
  | .obj entries => (entriesToJson entries).map .obj

/-- The values of some items. -/
def itemsToJson : List Document → Except NumeralError (List Json)
  | [] => .ok []
  | d :: ds => do
    let x ← toJson d
    let xs ← itemsToJson ds
    .ok (x :: xs)

/-- The values of some entries. -/
def entriesToJson : List (Text × Document) → Except NumeralError (List (Text × Json))
  | [] => .ok []
  | (k, d) :: ds => do
    let x ← toJson d
    let xs ← entriesToJson ds
    .ok ((k, x) :: xs)

end

end Document
end JsonQuery
