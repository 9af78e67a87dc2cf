/-
The options of the command line.

Long options may be shortened as long as only one option starts so, and may have their value
after an equals sign.  Short options may be run together, the last one with its value.  An equals
sign after the first of them is skipped, whether a value or further options follow; after a later
one it belongs to the value.  Two dashes end the options.  At most one argument that is no option
is taken, the expression.

* `Options.parse` — the options that some arguments give, or why none.
-/
import JsonQuery.Number.Loose

namespace JsonQuery
namespace CommandLine

/-- The options. -/
inductive Switch where
  | help
  | exprFile
  | input
  | tree
  | compact
  | raw
  | limit
  | debug
  deriving DecidableEq

/-- Whether an option has a value. -/
def Switch.takesValue : Switch → Bool
  | .exprFile => true
  | .input => true
  | .limit => true
  | _ => false

/-- How the options are written. -/
def switches : List (String × Switch) :=
  [("-h", .help), ("--help", .help), ("--expr-file", .exprFile), ("-e", .exprFile),
    ("--filename", .input), ("-f", .input), ("--ast", .tree), ("-c", .compact),
    ("--compact-output", .compact), ("-r", .raw), ("--raw-output", .raw),
    ("--recursion-limit", .limit), ("--debug", .debug)]

/-- The option that is written so. -/
def switch? (t : Text) : Option Switch :=
  (switches.find? fun (name, _) => t == Text.ofString name).map Prod.snd

/-- Why arguments give no options. -/
inductive Stop where
  /-- The arguments cannot be understood. -/
  | usage
  /-- The help was asked for. -/
  | help
  deriving DecidableEq

/-- What an argument is. -/
inductive Word where
  | positional (t : Text)
  | separator
  /-- An option and what follows it in the same argument.  After a long one, which is written
  with two dashes, no further options follow. -/
  | option (s : Switch) (long : Bool) (value : Option Text)
  | unknown

/-- The dash. -/
def dash : CodePoint := .scalar '-'

/-- The equals sign. -/
def equalsSign : CodePoint := .scalar '='

/-- The two parts of a text around its first equals sign. -/
def splitEquals (t : Text) : Option (Text × Text) :=
  match t.span (· != equalsSign) with
  | (name, _ :: value) => some (name, value)
  | (_, []) => none

/-- Decimal digits of any script, at least one. -/
def isDigits (t : Text) : Bool :=
  !t.isEmpty && t.all fun c => c.decimal?.isSome

/-- Whether an argument is a negative number rather than an option. -/
def isNegativeNumber (t : Text) : Bool :=
  let body := if t.getLast? = some (.scalar '\n') then t.dropLast else t
  match body with
  | .scalar '-' :: digits =>
    isDigits digits ||
      match digits.span (· != .scalar '.') with
      | (whole, _ :: fraction) =>
        (whole.isEmpty || isDigits whole) && isDigits fraction
      | (_, []) => false
  | _ => false

/-- The options that an argument may be short for, each with the value in the same argument. -/
def candidates (t : Text) : List (Switch × Option Text) :=
  if t.take 2 = [dash, dash] then
    let (start, value) :=
      match splitEquals t with
      | some (name, value) => (name, some value)
      | none => (t, none)
    switches.filterMap fun (name, s) =>
      if start.isPrefixOf (Text.ofString name) then some (s, value) else none
  else
    switches.filterMap fun (name, s) =>
      if Text.ofString name = t.take 2 then some (s, some (t.drop 2))
      else if t.isPrefixOf (Text.ofString name) then some (s, none)
      else none

/-- What an argument before the separator is. -/
def Word.ofText (t : Text) : Except Stop Word :=
  let long := t.take 2 = [dash, dash]
  if t.head? ≠ some dash then
    .ok (.positional t)
  else if let some s := switch? t then
    .ok (.option s long none)
  else if t.length = 1 then
    .ok (.positional t)
  else
    let direct := (splitEquals t).bind fun (name, value) =>
      (switch? name).map fun s => Word.option s long (some value)
    match direct, candidates t with
    | some w, _ => .ok w
    | none, [(s, value)] => .ok (.option s long value)
    | none, _ :: _ :: _ => .error .usage
    | none, [] =>
      if isNegativeNumber t || t.contains (.scalar ' ') then .ok (.positional t)
      else .ok .unknown

/-- What the arguments are: after the separator none is an option. -/
def words : List Text → Except Stop (List Word)
  | [] => .ok []
  | t :: ts =>
    if t = [dash, dash] then
      .ok (.separator :: ts.map .positional)
    else do
      let w ← Word.ofText t
      let ws ← words ts
      .ok (w :: ws)

/-- The options that are given.  A file without a name counts as none. -/
structure Options where
  expression : Option Text
  exprFile : Text
  input : Text
  tree : Bool
  compact : Bool
  raw : Bool
  limit : Option Int
  debug : Bool

namespace Options

/-- No options. -/
def none : Options :=
  ⟨.none, [], [], false, false, false, .none, false⟩

/-- The options with one more. -/
def set (o : Options) (s : Switch) (value : Text) : Except Stop Options :=
  match s with
  | .help => .error .help
  | .exprFile => .ok { o with exprFile := value }
  | .input => .ok { o with input := value }
  | .tree => .ok { o with tree := true }
  | .compact => .ok { o with compact := true }
  | .raw => .ok { o with raw := true }
  | .debug => .ok { o with debug := true }
  | .limit =>
    match value.looseInt? with
    | some i => .ok { o with limit := some i }
    | .none => .error .usage

/-- How an argument with options ends. -/
inductive Ending where
  | complete
  /-- The last option has its value in the next argument. -/
  | awaiting (s : Switch)

/-- An option that nothing follows in its argument. -/
def alone (s : Switch) : List (Switch × Text) × Ending :=
  if s.takesValue then ([], .awaiting s) else ([(s, [])], .complete)

/-- The options in one argument, from an option on that some text follows: its value, or further
options. -/
def together (s : Switch) (long : Bool) :
    Text → Except Stop (List (Switch × Text) × Ending)
  | [] => if s.takesValue then .ok ([(s, [])], .complete) else .error .usage
  | c :: t =>
    if s.takesValue then .ok ([(s, c :: t)], .complete)
    else if long then .error .usage
    else
      match switch? [dash, c], t with
      | .none, _ => .error .usage
      | some s', [] => .ok ((s, []) :: (alone s').1, (alone s').2)
      | some s', c' :: t' =>
        (together s' false (c' :: t')).map fun more => ((s, []) :: more.1, more.2)

/-- The options in one argument. -/
def inArgument (s : Switch) (long : Bool) :
    Option Text → Except Stop (List (Switch × Text) × Ending)
  | .none => .ok (alone s)
  | some t => together s long t

/-- The options with some more. -/
def setAll (o : Options) (given : List (Switch × Text)) : Except Stop Options :=
  given.foldlM (fun o (s, value) => o.set s value) o

/-- Whether the expression was taken. -/
inductive Progress where
  | open
  /-- The expression is the argument before. -/
  | justTaken
  | taken
  deriving DecidableEq

/-- What was taken, after an option. -/
def Progress.pastOption (p : Progress) : Progress :=
  if p = .justTaken then .taken else p

/-- The options with those of further arguments. -/
def gather (o : Options) (progress : Progress) : List Word → Except Stop Options
  | [] => .ok o
  | .positional t :: ws =>
    if progress = .open then gather { o with expression := some t } .justTaken ws
    else do
      let _ ← gather o progress ws
      .error .usage
  | .separator :: ws =>
    match progress with
    | .open => gather o .open ws
    | .justTaken => gather o .taken ws
    | .taken => .error .usage
  | .unknown :: ws => do
    let _ ← gather o progress ws
    .error .usage
  | .option s long value :: ws =>
    match inArgument s long value with
    | .error e => .error e
    | .ok (given, .complete) => do
      let o ← o.setAll given
      gather o progress.pastOption ws
    | .ok (given, .awaiting last) =>
      match ws with
      | .positional t :: ws => do
        let o ← o.setAll (given ++ [(last, t)])
        gather o progress.pastOption ws
      | _ => .error .usage

/-- The options that some arguments give. -/
def parse (argv : List Text) : Except Stop Options := do
  let ws ← words argv
  gather none .open ws

end Options
end CommandLine
end JsonQuery
