/-
Queries: compiled sources that can be searched with.

* `Query.compile` — the query of a source, with a registry and a limit of its own if need be;
* `Query.search` — the result of a query on a value, or why there is none;
* `Query.searchHost` — the same with data of the embedding program.
-/
import JsonQuery.Eval
import JsonQuery.Expr.Parser
import JsonQuery.Text.Utf8

namespace JsonQuery

/-- The limit of queries that are given none. -/
def defaultLimit : Int := 256

/-- A query.  Without a registry of its own it uses the standard one; without an expression it
cannot be evaluated. -/
structure Query where
  source : Text
  expr : Option Expr
  registry : Option Registry
  limit : Int
  limit_pos : 1 ≤ limit

/-- Why a source gives no query. -/
inductive CompileError where
  | source (e : SourceError)
  | limitTooLow

/-- Why a search has no result. -/
inductive SearchError where
  | query (e : QueryError)
  | sumOverflow
  | noExpression
  | host (f : HostFailure)

/-- What is said of a limit below one. -/
def limitTooLowMessage : Text := "recursion_limit must be at least 1"

/-- What is said of a sum that became too large on the way. -/
def sumOverflowMessage : Text := "intermediate overflow in fsum"

/-- What is said of a query without an expression. -/
def noExpressionMessage : Text := "Unsupported AST node Node"

namespace Query

/-- A query with an expression that is given. -/
def ofExpr (source : Text) (expr : Option Expr) (registry : Option Registry) (limit : Int) :
    Except CompileError Query :=
  if h : 1 ≤ limit then .ok ⟨source, expr, registry, limit, h⟩ else .error .limitTooLow

/-- The query of a source. -/
def compile (source : Text) (registry : Option Registry) (limit : Int) :
    Except CompileError Query := do
  let e ← (Expr.parse source).mapError .source
  ofExpr source (some e) registry limit

/-- The text of a source that is given as bytes. -/
def decodeSource (bytes : List UInt8) : Except CompileError Text :=
  (Utf8.decode bytes).mapError fun fault =>
    .source (.query ⟨.lex .invalidCharacter "invalid UTF-8", fault.start, none⟩)

/-- What stays the same during an evaluation.  Unless it is told what the host holds as one object,
all that is built alike is. -/
def env (q : Query) (shared : Sharing := .alike) : Env :=
  ⟨q.source, q.registry.getD .standard, q.limit, shared⟩

/-- The evaluation of a query on a value. -/
def run (q : Query) (v : Value) (shared : Sharing := .alike) : Run Value :=
  match q.expr with
  | some e => eval (q.env shared) nestingLimit 0 e v
  | none => Run.fail .noExpression

/-- The error that there are more levels than there may be. -/
def tooDeep (q : Query) (offset : Int) : SearchError :=
  .query ⟨.eval (.recursionLimit q.limit), offset, some q.source⟩

/-- What a failure of an evaluation is told as; errors know the source. -/
def searchError (q : Query) (lastCall : Option Int) : Failure → SearchError
  | .problem p offset => .query ⟨.eval p, offset, some q.source⟩
  | .sumOverflow => .sumOverflow
  | .exhausted => q.tooDeep (lastCall.getD 0)
  | .noExpression => .noExpression
  | .host f => .host f

/-- The result of an evaluation of a query, or how its failure is told. -/
def result (q : Query) (run : Run Value) : Except SearchError Value :=
  run.outcome.mapError (q.searchError run.lastCall)

/-- The result of a query on a value. -/
def search (q : Query) (v : Value) (shared : Sharing := .alike) : Except SearchError Value :=
  q.result (q.run v shared)

/-- The result of a query on data of the embedding program. -/
def searchHost (q : Query) (data : Host) (shared : Sharing := .alike) :
    Except SearchError Host := do
  let v ← data.read.mapError fun
    | .tooDeep => q.tooDeep 0
    | .conversion e => .host (.conversion e)
  let result ← q.search v shared
  if nestingLimit < result.height then
    .error (q.tooDeep 0)
  .ok result.toHost

/-- The name that a query is shown by. -/
def display (q : Query) : Text :=
  "Expression(" ++ q.source.quoted ++ ")"

/-- Queries are equal when their sources are. -/
def same (q r : Query) : Bool :=
  q.source == r.source

end Query
end JsonQuery
