/-
Reading bytes as UTF-8.

Reading stops at the first place where the bytes are not well formed, and tells where and why:
no character starts with the byte found there, or the character started there is broken off by a
byte that cannot continue it, or by the end of the bytes.

* `Utf8.decode` — the text of some bytes, or the first fault;
* `Utf8.Fault.message` — the fault in words.
-/
import JsonQuery.Text

namespace JsonQuery
namespace Utf8

/-- Why bytes are not UTF-8. -/
inductive Reason where
  | invalidStart
  | invalidContinuation
  | unexpectedEnd
  deriving DecidableEq

/-- A fault: the byte at its start, and the range of the bytes that it covers. -/
structure Fault where
  reason : Reason
  byte : UInt8
  start : Nat
  stop : Nat
  deriving DecidableEq

/-- The words for a reason. -/
def Reason.words : Reason → String
  | .invalidStart => "invalid start byte"
  | .invalidContinuation => "invalid continuation byte"
  | .unexpectedEnd => "unexpected end of data"

/-- A fault in words.  One byte is shown, several are told by their positions. -/
def Fault.message (f : Fault) : Text :=
  if f.stop = f.start + 1 then
    "'utf-8' codec can't decode byte 0x" ++ Text.hex 2 f.byte.toNat ++ " in position " ++
      Text.ofNat f.start ++ ": " ++ f.reason.words
  else
    "'utf-8' codec can't decode bytes in position " ++ Text.ofNat f.start ++ "-" ++
      Text.ofNat (f.stop - 1) ++ ": " ++ f.reason.words

/-- What the first byte of a character says about it: the bits that it adds, how many bytes
follow, and the range of the second byte. -/
structure Lead where
  bits : Nat
  following : Nat
  low : Nat
  high : Nat

/-- The meaning of a byte that starts a character. -/
def lead? (b : Nat) : Option Lead :=
  if b < 0x80 then some ⟨b, 0, 0x80, 0xBF⟩
  else if b < 0xC2 then none
  else if b < 0xE0 then some ⟨b - 0xC0, 1, 0x80, 0xBF⟩
  else if b < 0xF0 then
    some ⟨b - 0xE0, 2, if b = 0xE0 then 0xA0 else 0x80, if b = 0xED then 0x9F else 0xBF⟩
  else if b < 0xF5 then
    some ⟨b - 0xF0, 3, if b = 0xF0 then 0x90 else 0x80, if b = 0xF4 then 0x8F else 0xBF⟩
  else none

/-- Why the bytes that follow the first one of a character do not complete it, and how many of
them do fit. -/
abbrev Break := Reason × Nat

/-- The number of a character from the bits so far and the bytes that follow, or why it is
broken off. -/
def continued (bits low high : Nat) : Nat → List UInt8 → Except Break Nat
  | 0, _ => .ok bits
  | _ + 1, [] => .error (.unexpectedEnd, 0)
  | n + 1, b :: bytes =>
    if low ≤ b.toNat ∧ b.toNat ≤ high then
      (continued (bits * 64 + (b.toNat - 0x80)) 0x80 0xBF n bytes).mapError
        fun (reason, fitting) => (reason, fitting + 1)
    else
      .error (.invalidContinuation, 0)

/-- The text of some bytes that start at an offset; `skip` bytes belong to the character before
them. -/
def decodeFrom (offset : Nat) : (skip : Nat) → List UInt8 → Except Fault Text
  | _, [] => .ok []
  | skip + 1, _ :: bytes => decodeFrom (offset + 1) skip bytes
  | 0, b :: bytes =>
    match lead? b.toNat with
    | none => .error ⟨.invalidStart, b, offset, offset + 1⟩
    | some lead =>
      match continued lead.bits lead.low lead.high lead.following bytes with
      | .ok n => (decodeFrom (offset + 1) lead.following bytes).map (CodePoint.ofNat n :: ·)
      | .error (reason, fitting) => .error ⟨reason, b, offset, offset + 1 + fitting⟩

/-- The text of some bytes. -/
def decode (bytes : List UInt8) : Except Fault Text :=
  decodeFrom 0 0 bytes

end Utf8
end JsonQuery
