/-
Trees written one node a line.

Each node stands on a line of its own, two spaces further in than the node above it, with its
name and what it carries.  The keys of a hash have lines of their own, between the hash and their
values.

* `Expr.outline` — the lines of a tree, joined by line feeds;
* `Expr.outline?` — which are written where the stack suffices.
-/
import JsonQuery.Expr
import JsonQuery.Json.Writer
import JsonQuery.Text.Quoted

namespace JsonQuery

/-- A bound of a slice, with a word for a missing one. -/
def boundText : Option Int → Text
  | some i => Text.ofInt i
  | none => "None"

namespace Expr

/-- The name of a node. -/
def nodeName : Expr → String
  | .atom .identity _ => "Identity"
  | .atom .current _ => "CurrentNode"
  | .atom (.field _) _ => "Field"
  | .atom (.index _) _ => "Index"
  | .atom (.slice _) _ => "Slice"
  | .atom (.literal _) _ => "Literal"
  | .unary .flatten _ _ => "Flatten"
  | .unary .not _ _ => "Not"
  | .unary .reference _ _ => "ExpressionRef"
  | .binary .eachItem _ _ _ => "ListProjection"
  | .binary .eachValue _ _ _ => "ObjectProjection"
  | .binary .pipe _ _ _ => "Pipe"
  | .binary .step _ _ _ => "Subexpr"
  | .binary .and _ _ _ => "And"
  | .binary .or _ _ _ => "Or"
  | .binary (.compare _) _ _ _ => "Comparison"
  | .filter _ _ _ _ => "FilterProjection"
  | .list _ _ => "MultiSelectList"
  | .hash _ _ => "MultiSelectHash"
  | .call _ _ _ => "FunctionCall"

/-- What a node carries besides the nodes below it, with a space in front. -/
def detail : Expr → Text
  | .atom (.field name) _ => " " ++ name.quoted
  | .atom (.index i) _ => " " ++ Text.ofInt i
  | .atom (.slice s) _ =>
    " " ++ boundText s.start ++ ":" ++ boundText s.stop ++ ":" ++ boundText s.step
  | .atom (.literal j) _ => " Value(" ++ j.write none ++ ")"
  | .binary (.compare c) _ _ _ => " " ++ Text.ofString c.symbol
  | .call name _ _ => " " ++ name ++ "()"
  | _ => []

/-- The indentation of a level; a level below zero has none. -/
def margin (level : Int) : Text :=
  List.replicate (2 * level.toNat) (.scalar ' ')

/-- The line of a node. -/
def headLine (level : Int) (e : Expr) : Text :=
  margin level ++ e.nodeName ++ e.detail

/-- The line of a key of a hash at a level. -/
def keyLine (level : Int) (key : Text) : Text :=
  margin level ++ "  " ++ key.quoted ++ ":"

mutual

/-- The lines of a tree whose root stands at a level. -/
def lines (level : Int) : Expr → List Text
  | .atom a offset => [headLine level (.atom a offset)]
  | .unary op a offset => headLine level (.unary op a offset) :: lines (level + 1) a
  | .binary op a b offset =>
    headLine level (.binary op a b offset) :: (lines (level + 1) a ++ lines (level + 1) b)
  | .filter a p b offset =>
    headLine level (.filter a p b offset) ::
      (lines (level + 1) a ++ lines (level + 1) p ++ lines (level + 1) b)
  | .list as offset => headLine level (.list as offset) :: linesList (level + 1) as
  | .hash ps offset => headLine level (.hash ps offset) :: linesPairs level ps
  | .call f as offset => headLine level (.call f as offset) :: linesList (level + 1) as

/-- The lines of some trees at a level. -/
def linesList (level : Int) : List Expr → List Text
  | [] => []
  | a :: as => lines level a ++ linesList level as

/-- The lines of the keys and values of a hash at a level. -/
def linesPairs (level : Int) : List (Text × Expr) → List Text
  | [] => []
  | (k, a) :: ps => keyLine level k :: (lines (level + 2) a ++ linesPairs level ps)

end

/-- A tree written one node a line. -/
def outline (level : Int) (e : Expr) : Text :=
  List.intercalate [.scalar '\n'] (lines level e)

/-- A tree written one node a line, unless it has more nodes one below the other than the stack has
frames. -/
def outline? (level : Int) (e : Expr) : Option Text :=
  if stackFrames < e.height then none else some (e.outline level)

end Expr
end JsonQuery
