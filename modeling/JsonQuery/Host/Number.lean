/-
Numbers from data of the embedding program.

* `Host.toNumber` — the number that data are read as: numbers, and texts and bytes that say a
  number.
-/
import JsonQuery.Host
import JsonQuery.Number.Loose
import JsonQuery.Text.Quoted

namespace JsonQuery

/-- Why data are no number. -/
inductive NumberError where
  | boolean
  | unreadable (t : Text)
  | unreadableBytes (content : List UInt8)
  | wrongType (typeName : String)
  | numeral (e : NumeralError)

/-- The error in words. -/
def NumberError.message : NumberError → Text
  | .boolean => "booleans are not numbers"
  | .unreadable t => "could not convert string to float: " ++ t.quoted
  | .unreadableBytes content =>
    "could not convert string to float: " ++ Text.quotedBytes content
  | .wrongType typeName =>
    "float() argument must be a string or a real number, not '" ++ typeName ++ "'"
  | .numeral e => e.message

/-- The class of the error. -/
def NumberError.errorClass : NumberError → ErrorClass
  | .unreadable _ => .valueError
  | .unreadableBytes _ => .valueError
  | .numeral e => e.errorClass
  | .boolean => .typeError
  | .wrongType _ => .typeError

/-- The floating-point value of bytes: that of the text whose code points they are, if all of
them are below 0x80. -/
def looseFloatOfBytes? (content : List UInt8) : Option Float64 :=
  if content.all (· < 0x80) then Text.looseFloat? (content.map fun b => .ofNat b.toNat)
  else none

/-- The number that data are read as. -/
def Host.toNumber : Host → Except NumberError Number
  | .bool _ => .error .boolean
  | .num n => n.toNumber.mapError .numeral
  | .str t =>
    match t.looseFloat? with
    | some x => (Numeral.float x).toNumber.mapError .numeral
    | none => .error (.unreadable t)
  | .bytes content =>
    match looseFloatOfBytes? content with
    | some x => (Numeral.float x).toNumber.mapError .numeral
    | none => .error (.unreadableBytes content)
  | h => .error (.wrongType h.typeName)

end JsonQuery
