/-
Functions that queries call.

A function has a signature and a body.  The body sees its arguments and the circumstances of the
call; through them it evaluates the expressions that it was passed, and calls other functions.

* `Call` — the circumstances of a call;
* `Function.ofHost` — a function of the embedding program, whose results become values;
* `HostOffer.toFunction` — such a function from parts that may be wrong.
-/
import JsonQuery.Function.Signature
import JsonQuery.Run

namespace JsonQuery

/-- The circumstances of a call. -/
structure Call where
  /-- The source of the query. -/
  source : Text
  /-- How many nodes are being evaluated, that of the call included. -/
  depth : Nat
  /-- How many there may be. -/
  limit : Int
  /-- The offset of the call. -/
  offset : Int
  /-- Evaluates an expression on a value. -/
  evaluate : Expr → Value → Run Value
  /-- Calls a function by its name, at an offset: that of the last call in what was evaluated before
  (`Run.lastCall`), or of this call if there was none. -/
  invoke : Int → Text → List Value → Run Value
  /-- What the host holds as one object. -/
  shared : Sharing

/-- A function: what it takes, and what it does. -/
structure Function where
  signature : Signature
  body : Call → List Value → Run Value

/-- The value of data that a function of the embedding program gives. -/
def Host.result (h : Host) : Run Value :=
  Run.ofExcept (fun
    | .tooDeep => .exhausted
    | .conversion e => .host (.conversion e)) h.read

/-- A function of the embedding program. -/
def Function.ofHost (signature : Signature) (body : Call → List Value → Run Host) : Function :=
  ⟨signature, fun call args => do
    let h ← body call args
    h.result⟩

/-- A signature and a body that the embedding program offers as a function.  Either may be something
else instead. -/
structure HostOffer where
  signature : Option Signature
  body : Option (Call → List Value → Run Host)

/-- Why an offer is no function. -/
inductive OfferError where
  | notASignature
  | notCallable

/-- The error in words. -/
def OfferError.message : OfferError → Text
  | .notASignature => "signature must be a Signature"
  | .notCallable => "func must be callable"

/-- The function that is offered.  The signature is looked at first. -/
def HostOffer.toFunction (offer : HostOffer) : Except OfferError Function :=
  match offer.signature, offer.body with
  | some signature, some body => .ok (.ofHost signature body)
  | some _, none => .error .notCallable
  | none, _ => .error .notASignature

/-- A function without a body. -/
def Function.abstract (signature : Signature) : Function :=
  ⟨signature, fun _ _ => Run.fail (.host .notImplemented)⟩

end JsonQuery
