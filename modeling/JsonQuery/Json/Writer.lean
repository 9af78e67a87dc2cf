/-
JSON text of values.

A value is written on one line without spaces, or with every item and entry on a line of its own,
indented by a number of spaces for each level.  Inside strings the quote, the backslash and the
control characters are escaped, and everything else stands as it is.

* `Json.write` — the text of a document;
* `Data.render` — the text of a value, unless it holds a reference or is nested too deeply.
-/
import JsonQuery.Data
import JsonQuery.Nesting
import JsonQuery.Number.Notation

namespace JsonQuery

/-- A code point inside a JSON string. -/
def CodePoint.escaped (c : CodePoint) : Text :=
  if c = .scalar '\x22' ∨ c = .scalar '\\' then [.scalar '\\', c]
  else if c = .scalar '\n' then Text.ofChars ['\\', 'n']
  else if c = .scalar '\r' then Text.ofChars ['\\', 'r']
  else if c = .scalar '\t' then Text.ofChars ['\\', 't']
  else if c.toNat = 8 then Text.ofChars ['\\', 'b']
  else if c.toNat = 12 then Text.ofChars ['\\', 'f']
  else if c.toNat < 0x20 then Text.ofChars ['\\', 'u'] ++ Text.hex 4 c.toNat
  else [c]

/-- A text as a JSON string. -/
def Text.toJsonString (t : Text) : Text :=
  .scalar '\x22' :: t.flatMap CodePoint.escaped ++ [.scalar '\x22']

namespace Json

/-- The break in front of an item at a level: nothing on one line, else a new line with its
indentation. -/
def lineBreak (indent : Option Nat) (level : Nat) : Text :=
  match indent with
  | none => []
  | some n => .scalar '\n' :: List.replicate (n * level) (.scalar ' ')

/-- What stands between a key and its value. -/
def colon (indent : Option Nat) : Text :=
  match indent with
  | none => [.scalar ':']
  | some _ => [.scalar ':', .scalar ' ']

/-- An opening bracket, some content on the next level, and the closing bracket. -/
def enclose (indent : Option Nat) (level : Nat) (opening closing : Char) (content : Text) :
    Text :=
  .scalar opening :: lineBreak indent (level + 1) ++ content ++ lineBreak indent level ++
    [.scalar closing]

/-- A comma and the break after it. -/
def comma (indent : Option Nat) (level : Nat) : Text :=
  .scalar ',' :: lineBreak indent level

mutual

/-- The text of a document that starts at a level. -/
def writeAt (indent : Option Nat) (level : Nat) : Json → Text
  | .null => Text.ofChars ['n', 'u', 'l', 'l']
  | .bool true => Text.ofChars ['t', 'r', 'u', 'e']
  | .bool false => Text.ofChars ['f', 'a', 'l', 's', 'e']
  | .num x => x.toText
  | .str t => t.toJsonString
  | .arr [] => Text.ofChars ['[', ']']
  | .arr (x :: xs) =>
    enclose indent level '[' ']'
      (writeAt indent (level + 1) x ++ writeItems indent (level + 1) xs)
  | .obj [] => Text.ofChars ['\x7b', '\x7d']
  | .obj ((k, x) :: xs) =>
    enclose indent level '\x7b' '\x7d'
      (k.toJsonString ++ colon indent ++ writeAt indent (level + 1) x ++
        writeEntries indent (level + 1) xs)
  | .ref body _ => body.elim

/-- The texts of further items, each after a comma. -/
def writeItems (indent : Option Nat) (level : Nat) : List Json → Text
  | [] => []
  | x :: xs => comma indent level ++ writeAt indent level x ++ writeItems indent level xs

/-- The texts of further entries, each after a comma. -/
def writeEntries (indent : Option Nat) (level : Nat) : List (Text × Json) → Text
  | [] => []
  | (k, x) :: xs =>
    comma indent level ++ k.toJsonString ++ colon indent ++ writeAt indent level x ++
      writeEntries indent level xs

end

/-- The text of a document. -/
def write (indent : Option Nat) (j : Json) : Text :=
  writeAt indent 0 j

end Json

/-- Why a value has no JSON text. -/
inductive RenderError where
  /-- The value is a reference. -/
  | reference
  /-- The value holds a reference. -/
  | holdsReference
  | tooDeep
  deriving DecidableEq

/-- The reason in words. -/
def RenderError.message : RenderError → Text
  | .reference => "expression references cannot be serialized to JSON"
  | .holdsReference => "Object of type ExpressionRef is not JSON serializable"
  | .tooDeep => "nested too deeply"

/-- The JSON text of a value, on one line or on several lines with an indentation.  The host also
takes an indentation below zero, which it makes nothing of: that is the one of zero. -/
def Data.render {ρ : Type} (indent : Option Nat) (d : Data ρ) : Except RenderError Text :=
  if d.kind = .expref then .error .reference
  else if nestingLimit < d.height then .error .tooDeep
  else match d.toJson? with
    | some j => .ok (j.write indent)
    | none => .error .holdsReference

end JsonQuery
