/-
Texts as names of files.

A system knows its files by names that are bytes.  A name is encoded as UTF-8, in which the
surrogates from U+DC80 to U+DCFF stand for the single bytes from 0x80 to 0xFF.  Other surrogates
cannot be encoded, and no name holds a null character.

* `FileName.fault?` — why a text cannot be the name of a file, if it cannot.
-/
import JsonQuery.Text

namespace JsonQuery
namespace FileName

/-- Why a text cannot be the name of a file. -/
inductive Fault where
  /-- Surrogates from one place up to before another, the first of which stands for no byte. -/
  | surrogates (first : CodePoint) (start stop : Nat)
  | null
  deriving DecidableEq

/-- A fault in words.  One surrogate is shown, several are told by their positions. -/
def Fault.message : Fault → Text
  | .surrogates first start stop =>
    if stop = start + 1 then
      "'utf-8' codec can't encode character '\\u" ++ Text.hex 4 first.toNat ++
        "' in position " ++ Text.ofNat start ++ ": surrogates not allowed"
    else
      "'utf-8' codec can't encode characters in position " ++ Text.ofNat start ++ "-" ++
        Text.ofNat (stop - 1) ++ ": surrogates not allowed"
  | .null => "embedded null byte"

/-- Whether a code point is a surrogate. -/
def isSurrogate (c : CodePoint) : Bool :=
  c.char?.isNone

/-- Whether a code point can be encoded: as itself, or as the byte that it stands for. -/
def isEncodable (c : CodePoint) : Bool :=
  !isSurrogate c || (0xDC80 ≤ c.toNat && c.toNat ≤ 0xDCFF)

/-- The first surrogates that cannot be encoded, in a text that starts at a place. -/
def surrogateFault? (place : Nat) : Text → Option Fault
  | [] => none
  | c :: t =>
    if isEncodable c then surrogateFault? (place + 1) t
    else some (.surrogates c place (place + 1 + (t.takeWhile isSurrogate).length))

/-- Why a text cannot be the name of a file, if it cannot. -/
def fault? (t : Text) : Option Fault :=
  match surrogateFault? 0 t with
  | some f => some f
  | none => if t.contains (.ofNat 0) then some .null else none

end FileName
end JsonQuery
