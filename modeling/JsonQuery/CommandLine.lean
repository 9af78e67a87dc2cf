/-
The command line: one query on one document.

The query is an argument or stands in a file; the document is the standard input or a file.  The
result is printed as JSON text.  Whatever goes wrong is told on the error output and ends with
code 1, but for a sum that is too large on the way and files that are found but cannot be read:
these errors are left to the caller.

* `CommandLine.session` — what the command line does, on any surroundings;
* `CommandLine.run` — the same on files and a standard input that are known.
-/
import JsonQuery.CommandLine.Options
import JsonQuery.Expr.Outline
import JsonQuery.Query
import JsonQuery.Text.Blank
import JsonQuery.Text.FileName

namespace JsonQuery
namespace CommandLine

/-- Why what stands under the name of a file cannot be read. -/
inductive FileProblem where
  | isDirectory
  /-- A part of the name that is not the last one is no directory. -/
  | notADirectory
  | nameTooLong
  | forbidden
  deriving DecidableEq

/-- The number that the system has for a problem. -/
def FileProblem.number : FileProblem → Nat
  | .isDirectory => 21
  | .notADirectory => 20
  | .nameTooLong => 36
  | .forbidden => 13

/-- The problem in words. -/
def FileProblem.words : FileProblem → String
  | .isDirectory => "Is a directory"
  | .notADirectory => "Not a directory"
  | .nameTooLong => "File name too long"
  | .forbidden => "Permission denied"

/-- What stands under the name of a file. -/
inductive FileContent where
  | missing
  | unreadable (problem : FileProblem)
  | bytes (bytes : List UInt8)

/-- How files and the standard input are read, and what the host holds as one object. -/
structure Surroundings (m : Type → Type) where
  file : Text → m FileContent
  input : m (Except Utf8.Fault Text)
  shared : Sharing

/-- Why nothing is printed. -/
inductive Refusal where
  | noSource
  | missingFile (name : Text)
  | unreadable (problem : FileProblem) (name : Text)
  | fileName (fault : FileName.Fault)
  | encoding (fault : Utf8.Fault)
  | compile (e : CompileError)
  | deepTree
  | read (e : ReadError)
  | search (e : SearchError)
  | render (e : RenderError)

/-- An error that is left to the caller. -/
inductive Uncaught where
  | sumOverflow
  | unreadable (problem : FileProblem) (name : Text)
  deriving DecidableEq

/-- What an error that is left to the caller is told as. -/
def Uncaught.message : Uncaught → Text
  | .sumOverflow => sumOverflowMessage
  | .unreadable problem name =>
    "[Errno " ++ Text.ofNat problem.number ++ "] " ++ problem.words ++ ": " ++ name.quoted

/-- How the command line ends. -/
inductive Exit where
  | code (n : Nat)
  | uncaught (e : Uncaught)
  deriving DecidableEq

/-- What the command line prints, and how it ends. -/
structure Outcome where
  stdout : Text
  stderr : Text
  exit : Exit

/-! Texts -/

/-- What is said without a query. -/
def noSourceMessage : Text := "Missing expression (or --expr-file)"

/-- What is said of documents and trees that are nested too deeply. -/
def tooDeepMessage : Text := "JSON document is nested too deeply"

/-- How the command line is used. -/
def usage : Text := Text.ofString <| "\n".intercalate
  ["usage: haifa-jp [-h] [--expr-file EXPR_FILE] [--filename INPUT_PATH] [--ast]",
    "                [-c] [-r] [--recursion-limit RECURSION_LIMIT] [--debug]",
    "                [expression]",
    ""]

/-- The usage and the meaning of each option. -/
def help : Text := usage ++ (Text.ofString <| "\n".intercalate
  ["",
    "Run JMESPath expressions on JSON input",
    "",
    "positional arguments:",
    "  expression            JMESPath expression",
    "",
    "options:",
    "  -h, --help            show this help message and exit",
    "  --expr-file EXPR_FILE, -e EXPR_FILE",
    "                        Read the expression from a file",
    "  --filename INPUT_PATH, -f INPUT_PATH",
    "                        Path to JSON input file (default: stdin)",
    "  --ast                 Print the parsed AST instead of searching",
    "  -c, --compact-output  Compact JSON output (no spaces)",
    "  -r, --raw-output      Output strings without JSON quotes",
    "  --recursion-limit RECURSION_LIMIT",
    "                        Maximum evaluation depth before the search is aborted",
    "  --debug               Enable debug logging and print stack traces on failure",
    ""])

/-- A text as a line. -/
def line (t : Text) : Text :=
  t ++ [Text.lineFeed]

/-! Reports -/

/-- How a refusal is told. -/
inductive Report where
  /-- A line that is always printed. -/
  | always (t : Text)
  /-- A line that is left out where errors are traced. -/
  | unlessTraced (t : Text)
  | uncaught (e : Uncaught)

/-- A failure of the search that is not an error of the query. -/
def Report.failed (t : Text) : Report :=
  .unlessTraced ("JMESPath search failed: " ++ t)

/-- How an error of a source is told. -/
def Report.ofSourceError : SourceError → Report
  | .query e => .unlessTraced e.toText
  | .tooManyDigits count => .failed (tooManyDigitsMessage count)

/-- How an error of compiling is told. -/
def Report.ofCompileError : CompileError → Report
  | .source e => .ofSourceError e
  | .limitTooLow => .failed limitTooLowMessage

/-- How an error of reading a document is told. -/
def Report.ofReadError (e : ReadError) : Report :=
  match e with
  | .malformed _ _ _ _ => .always ("Failed to parse JSON input: " ++ e.message)
  | .tooDeep => .always tooDeepMessage
  | _ => .failed e.message

/-- How an error of a search is told. -/
def Report.ofSearchError : SearchError → Report
  | .query e => .unlessTraced e.toText
  | .sumOverflow => .uncaught .sumOverflow
  | .noExpression => .failed noExpressionMessage
  | .host f => .failed f.message

/-- How an error of writing the result is told. -/
def Report.ofRenderError (e : RenderError) : Report :=
  match e with
  | .tooDeep => .always tooDeepMessage
  | _ => .failed e.message

/-- How a refusal is told. -/
def Refusal.report : Refusal → Report
  | .noSource => .always noSourceMessage
  | .missingFile name => .always ("[Errno 2] No such file or directory: " ++ name.quoted)
  | .unreadable problem name => .uncaught (.unreadable problem name)
  | .fileName fault => .failed fault.message
  | .encoding fault => .failed fault.message
  | .compile e => .ofCompileError e
  | .deepTree => .always tooDeepMessage
  | .read e => .ofReadError e
  | .search e => .ofSearchError e
  | .render e => .ofRenderError e

/-- What the error output says of a report, and how the command line ends. -/
def Report.told (traced : Bool) : Report → Text × Exit
  | .always t => (line t, .code 1)
  | .unlessTraced t => (if traced then [] else line t, .code 1)
  | .uncaught e => ([], .uncaught e)

/-! Steps -/

variable {m : Type → Type} [Monad m]

/-- A step may log lines, and gives a result or refuses. -/
abbrev Step (m : Type → Type) := ExceptT Refusal (StateT (List Text) m)

/-- Logs a line. -/
def log (t : Text) : Step m Unit :=
  modify fun lines => lines ++ [t]

/-- A result, or a refusal for a reason. -/
def orRefuse {ε α : Type} (refusal : ε → Refusal) (x : Except ε α) : Step m α :=
  match x with
  | .ok a => pure a
  | .error e => throw (refusal e)

/-- The text in a file. -/
def fileText (s : Surroundings m) (name : Text) : Step m Text := do
  if let some fault := FileName.fault? name then
    throw (.fileName fault)
  match ← liftM (s.file name) with
  | .missing => throw (.missingFile name)
  | .unreadable problem => throw (.unreadable problem name)
  | .bytes bytes =>
    let t ← orRefuse .encoding (Utf8.decode bytes)
    pure t.unifyLineEnds

/-- The source of the query.  An empty one counts as none. -/
def sourceText (s : Surroundings m) (o : Options) : Step m Text := do
  let source ←
    if o.exprFile.isEmpty then pure (o.expression.getD [])
    else do
      let t ← fileText s o.exprFile
      pure t.strip
  if source.isEmpty then
    throw .noSource
  pure source

/-- The query of a source, and its tree. -/
def compile (o : Options) (source : Text) : Step m (Query × Expr) := do
  let e ← orRefuse (fun e => .compile (.source e)) (Expr.parse source)
  log ("haifa_jmespath.runtime: compiled expression " ++ source.quoted)
  let q ← orRefuse .compile (Query.ofExpr source (some e) none (o.limit.getD defaultLimit))
  pure (q, e)

/-- The text of the document. -/
def documentText (s : Surroundings m) (o : Options) : Step m Text :=
  if o.input.isEmpty then do
    let t ← liftM s.input
    orRefuse .encoding t
  else
    fileText s o.input

/-- Logs where a run met the limit of its query. -/
def logLimit (run : Run Value) : Step m Unit :=
  match run.outcome with
  | .error (.problem (.recursionLimit limit) offset) =>
    log ("haifa_jmespath.interpreter: recursion limit " ++ Text.ofInt limit ++
      " exceeded at offset " ++ Text.ofInt offset)
  | _ => pure ()

/-- The result of a query on a document. -/
def search (shared : Sharing) (q : Query) (document : Text) : Step m Value := do
  let j ← orRefuse .read (Json.read document)
  let run := q.run (.ofJson j) shared
  logLimit run
  orRefuse .search (q.result run)

/-- The text of a result: strings may stand as they are. -/
def write (o : Options) (v : Value) : Step m Text :=
  match v, o.raw with
  | .str t, true => pure t
  | _, _ => orRefuse .render (v.render (if o.compact then none else some 2))

/-- What is printed. -/
def work (s : Surroundings m) (o : Options) : Step m Text := do
  let source ← sourceText s o
  let (q, e) ← compile o source
  if o.tree then
    orRefuse (fun _ : Unit => .deepTree) ((e.outline? 0).elim (.error ()) .ok)
  else do
    let document ← documentText s o
    let v ← search s.shared q document
    write o v

/-- What a result or a refusal with some lines logged comes to; the log is shown only where
errors are traced. -/
def Outcome.ofResult (traced : Bool) (result : Except Refusal Text) (logged : List Text) :
    Outcome :=
  let logText : Text := if traced then logged.flatMap line else []
  match result with
  | .ok t => ⟨line t, logText, .code 0⟩
  | .error r =>
    let (t, exit) := r.report.told traced
    ⟨[], logText ++ t, exit⟩

/-- What the command line does. -/
def session (s : Surroundings m) (argv : List Text) : m Outcome :=
  match Options.parse argv with
  | .error .usage => pure ⟨[], usage, .code 2⟩
  | .error .help => pure ⟨help, [], .code 0⟩
  | .ok o => do
    let (result, logged) ← (work s o).run.run []
    pure (.ofResult o.debug result logged)

/-- What the command line does with files and a standard input that are known. -/
def run (argv : List Text) (stdin : Text) (file : Text → FileContent)
    (shared : Sharing := .alike) : Outcome :=
  Id.run (session ⟨fun name => pure (file name), pure (.ok stdin), shared⟩ argv)

end CommandLine
end JsonQuery
