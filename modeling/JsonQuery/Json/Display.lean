/-
Documents shown in error messages.

A document that is shown to a reader of messages has its texts between quotes, capitalised words
for its truth values and for nothing, and spaces after its commas and colons.

* `Document.display` — the shown form of a document.
-/
import JsonQuery.Json.Document
import JsonQuery.Text.Quoted

namespace JsonQuery

/-- A numeral as it is shown. -/
def Numeral.display : Numeral → Text
  | .int i => Text.ofInt i
  | .float x => x.toText

namespace Document

mutual

/-- The shown form of a document. -/
def display : Document → Text
  | .null => "None"
  | .bool true => "True"
  | .bool false => "False"
  | .num n => n.display
  | .str t => t.quoted
  | .arr items => "[" ++ List.intercalate (", " : Text) (displayItems items) ++ "]"
  | .obj entries =>
    "\x7b" ++ List.intercalate (", " : Text) (displayEntries entries) ++ "\x7d"

/-- The shown forms of some items. -/
def displayItems : List Document → List Text
  | [] => []
  | d :: ds => display d :: displayItems ds

/-- The shown forms of some entries. -/
def displayEntries : List (Text × Document) → List Text
  | [] => []
  | (k, d) :: ds => (k.quoted ++ ": " ++ display d) :: displayEntries ds

end

end Document
end JsonQuery
