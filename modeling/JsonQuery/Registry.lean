/-
Registries of functions.

A registry maps names to functions.  Its names are identifiers, so that every function in it can
be called; a name is taken once unless a registration may replace it; and a frozen registry takes
no more registrations.

* `Registry.register` — a registry with one more function, or why it is refused;
* `Registry.change`, `Registry.run` — one call that changes a registry, and a run of such calls;
* `Registry.standard` — the built-in functions, frozen.
-/
import JsonQuery.Function.Builtin

namespace JsonQuery

/-- What is offered to a registry as a function. -/
inductive Candidate where
  | function (f : Function)
  /-- A function that declares no signature. -/
  | withoutSignature
  /-- Something else, of a type with a name. -/
  | other (typeName : String)

/-- Why a registration is refused. -/
inductive RegistryError where
  | frozen
  | invalidName (name : Document)
  | notAFunction (name : Text) (typeName : String)
  | noSignature (name : Text)
  | nameTaken (name : Text)

/-- The error in words. -/
def RegistryError.message : RegistryError → Text
  | .frozen =>
    "the default function registry is read-only; create a FunctionRegistry instead"
  | .invalidName name => "invalid function name " ++ name.display
  | .notAFunction name typeName =>
    name ++ ": expected a Function, got " ++ Text.ofString typeName
  | .noSignature name => name ++ ": function has no Signature"
  | .nameTaken name => "function " ++ name.quoted ++ " is already registered"

/-- Why a call that changes a registry is refused. -/
inductive RegistrationError where
  | offer (e : OfferError)
  | registry (e : RegistryError)

/-- The error in words. -/
def RegistrationError.message : RegistrationError → Text
  | .offer e => e.message
  | .registry e => e.message

/-- Whether a text is an identifier. -/
def Text.isIdentifier : Text → Bool
  | [] => false
  | c :: t => c.isIdentifierStart && t.all CodePoint.isIdentifierPart

/-- Functions by their names. -/
structure Registry where
  functions : Entries Function
  frozen : Bool

namespace Registry

/-- A registry without functions. -/
def empty : Registry := ⟨[], false⟩

/-- A registry of the built-in functions. -/
def builtins : Registry := ⟨Builtin.entries, false⟩

/-- The same registry without further registrations. -/
def freeze (r : Registry) : Registry :=
  { r with frozen := true }

/-- The registry that queries use unless they are given another. -/
def standard : Registry := builtins.freeze

/-- The function of a name. -/
def get? (r : Registry) (name : Text) : Option Function :=
  r.functions.get? name

/-- Whether a name is taken. -/
def contains (r : Registry) (name : Text) : Bool :=
  (r.get? name).isSome

/-- The names that are taken, in ascending order. -/
def names (r : Registry) : List Text :=
  r.functions.keys.mergeSort fun s t => decide (¬ t < s)

/-- The name of a function, if it may be one. -/
def checkName : Document → Except RegistryError Text
  | .str name => if name.isIdentifier then .ok name else .error (.invalidName (.str name))
  | d => .error (.invalidName d)

/-- The function that is offered under a name, if it is one. -/
def checkCandidate (name : Text) : Candidate → Except RegistryError Function
  | .function f => .ok f
  | .withoutSignature => .error (.noSignature name)
  | .other typeName => .error (.notAFunction name typeName)

/-- The registry with one more function.  A name that is taken needs the right to replace. -/
def register (r : Registry) (name : Document) (candidate : Candidate) (replace : Bool) :
    Except RegistryError Registry := do
  if r.frozen then
    .error .frozen
  let name ← checkName name
  let f ← checkCandidate name candidate
  if r.contains name && !replace then
    .error (.nameTaken name)
  .ok { r with functions := r.functions.insert name f }

/-- The registry with one more function of the embedding program.  What is offered must be a
function before the registry is asked. -/
def registerHost (r : Registry) (name : Document) (offer : HostOffer) (replace : Bool) :
    Except RegistrationError Registry := do
  let f ← offer.toFunction.mapError .offer
  (r.register name (.function f) replace).mapError .registry

/-- A call that changes a registry. -/
inductive Change where
  | register (name : Document) (candidate : Candidate) (replace : Bool)
  | registerHost (name : Document) (offer : HostOffer) (replace : Bool)
  | freeze

/-- The changed registry, or why the change is refused. -/
def change (r : Registry) : Change → Except RegistrationError Registry
  | .register name candidate replace => (r.register name candidate replace).mapError .registry
  | .registerHost name offer replace => r.registerHost name offer replace
  | .freeze => .ok r.freeze

/-- The registry that a change leaves: the one from before if it is refused. -/
def after (r : Registry) (c : Change) : Registry :=
  match r.change c with
  | .ok changed => changed
  | .error _ => r

/-- The registry after some changes. -/
def run (r : Registry) (cs : List Change) : Registry :=
  cs.foldl after r

end Registry
end JsonQuery
