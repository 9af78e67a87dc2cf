/-
Signatures of functions.

A signature gives the type of each argument and perhaps one for further arguments.  Calls are
checked against it before a function sees its arguments: first their number, then their types in
order.

* `ParameterType.accepts` — which values a type allows;
* `Signature.check` — the first fault of the arguments of a call;
* `Signature.build` — a signature from a description that may be wrong.
-/
import JsonQuery.Error
import JsonQuery.Expr
import JsonQuery.Json.Display

namespace JsonQuery

/-- The types that arguments may be required to have. -/
inductive ArgumentType where
  | any
  | array
  | arrayNumber
  | arrayString
  | boolean
  | expref
  | number
  | object
  | string
  | null
  deriving DecidableEq

/-- What a type is called in messages. -/
def ArgumentType.text : ArgumentType → String
  | .any => "any"
  | .array => "array"
  | .arrayNumber => "array[number]"
  | .arrayString => "array[string]"
  | .boolean => "boolean"
  | .expref => "expref"
  | .number => "number"
  | .object => "object"
  | .string => "string"
  | .null => "null"

/-- Whether a value is an array with items of one kind only. -/
def Data.isArrayOf {ρ : Type} (kind : Kind) : Data ρ → Bool
  | .arr items => items.all fun x => x.kind == kind
  | _ => false

/-- Whether a type allows a value. -/
def ArgumentType.accepts (v : Value) : ArgumentType → Bool
  | .any => true
  | .array => v.kind == .array
  | .arrayNumber => v.isArrayOf .number
  | .arrayString => v.isArrayOf .string
  | .boolean => v.kind == .boolean
  | .expref => v.kind == .expref
  | .number => v.kind == .number
  | .object => v.kind == .object
  | .string => v.kind == .string
  | .null => v.kind == .null

/-- The type of an argument position: one type, or any of several. -/
inductive ParameterType where
  | one (t : ArgumentType)
  | union (options : List ParameterType)

namespace ParameterType

mutual

/-- Whether a type allows a value. -/
def accepts (v : Value) : ParameterType → Bool
  | .one t => t.accepts v
  | .union options => acceptsAny v options

/-- Whether one of some types allows a value. -/
def acceptsAny (v : Value) : List ParameterType → Bool
  | [] => false
  | t :: ts => accepts v t || acceptsAny v ts

end

mutual

/-- The names of all types that a type is made of. -/
def names : ParameterType → List Text
  | .one t => [Text.ofString t.text]
  | .union options => namesOfAll options

/-- The names of all types that some types are made of. -/
def namesOfAll : List ParameterType → List Text
  | [] => []
  | t :: ts => names t ++ namesOfAll ts

end

/-- What a type is called in messages. -/
def text (t : ParameterType) : Text :=
  List.intercalate [.scalar '|'] t.names

end ParameterType

/-- The types of the arguments, of further arguments if there may be any, and of the result. -/
structure Signature where
  inputs : List ParameterType
  variadic : Option ParameterType
  output : ParameterType

namespace Signature

/-- The least number of arguments. -/
def minArity (s : Signature) : Nat :=
  s.inputs.length

/-- The greatest number of arguments, if there is one. -/
def maxArity (s : Signature) : Option Nat :=
  if s.variadic.isSome then none else some s.inputs.length

/-- The type of the argument at a position, if there is one. -/
def expected? (s : Signature) (position : Nat) : Option ParameterType :=
  match s.inputs[position]? with
  | some t => some t
  | none => s.variadic

/-- Checks the arguments from a position on: the first one that its type does not allow is
told. -/
def checkTypes (s : Signature) (name : Text) (position : Nat) :
    List Value → Except EvalProblem Unit
  | [] => .ok ()
  | v :: vs =>
    match s.expected? position with
    | some t =>
      if t.accepts v then checkTypes s name (position + 1) vs
      else .error (.invalidType name position t.text (Text.ofString v.kind.name))
    | none => checkTypes s name (position + 1) vs

/-- Checks the arguments of a call. -/
def check (s : Signature) (name : Text) (args : List Value) : Except EvalProblem Unit :=
  if args.length < s.minArity ∨ (s.variadic.isNone ∧ s.minArity < args.length) then
    .error (.invalidArity name s.minArity args.length s.variadic.isSome)
  else
    s.checkTypes name 0 args

/-- A signature in words. -/
def toText (s : Signature) : Text :=
  let inputs := s.inputs.map ParameterType.text
  let further : List Text := s.variadic.toList.map fun t => t.text ++ Text.ofString "..."
  "Signature((" ++ List.intercalate (", " : Text) (inputs ++ further) ++ ") -> " ++
    s.output.text ++ ")"

end Signature

/-- A description of a type that may be wrong. -/
inductive TypeSpec where
  | type (t : ArgumentType)
  | union (options : List TypeSpec)
  | other (d : Document)

/-- Why a description is no signature. -/
inductive SignatureError where
  | emptyUnion
  | notAType (d : Document)

/-- The error in words. -/
def SignatureError.message : SignatureError → Text
  | .emptyUnion => "Union needs at least one ArgumentType"
  | .notAType d => "argument types must be ArgumentType or Union, got " ++ d.display

namespace TypeSpec

mutual

/-- Whether a union without options occurs in a description. -/
def hasEmptyUnion : TypeSpec → Bool
  | .type _ => false
  | .union options => options.isEmpty || anyHasEmptyUnion options
  | .other _ => false

/-- Whether a union without options occurs in some descriptions. -/
def anyHasEmptyUnion : List TypeSpec → Bool
  | [] => false
  | t :: ts => hasEmptyUnion t || anyHasEmptyUnion ts

end

mutual

/-- The type that is described. -/
def resolve : TypeSpec → Except SignatureError ParameterType
  | .type t => .ok (.one t)
  | .union options => (resolveAll options).map .union
  | .other d => .error (.notAType d)

/-- The types that are described. -/
def resolveAll : List TypeSpec → Except SignatureError (List ParameterType)
  | [] => .ok []
  | t :: ts => do
    let u ← resolve t
    let us ← resolveAll ts
    .ok (u :: us)

end

end TypeSpec

/-- A signature from descriptions of its types.  Unions without options are found first. -/
def Signature.build (inputs : List TypeSpec) (variadic : Option TypeSpec) (output : TypeSpec) :
    Except SignatureError Signature :=
  if TypeSpec.anyHasEmptyUnion (inputs ++ variadic.toList ++ [output]) then
    .error .emptyUnion
  else do
    let inputs ← TypeSpec.resolveAll inputs
    let variadic ← variadic.mapM TypeSpec.resolve
    let output ← output.resolve
    .ok ⟨inputs, variadic, output⟩

end JsonQuery
