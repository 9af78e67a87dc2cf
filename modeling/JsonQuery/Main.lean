/-
The program: the command line on the files and the streams of the system.
-/
import JsonQuery.CommandLine

namespace JsonQuery
namespace CommandLine

/-- A text as it is printed; halves of surrogate pairs become replacement characters. -/
def printed (t : Text) : String :=
  String.ofList <| t.map fun
    | .scalar c => c
    | .surrogate _ => '\uFFFD'

/-- All bytes up to the end of a stream. -/
partial def readAll (stream : IO.FS.Stream) (before : ByteArray) : IO ByteArray := do
  let more ← stream.read 65536
  if more.isEmpty then
    pure before
  else
    readAll stream (before ++ more)

/-- What stands under the name of a file of the system. -/
def systemFile (name : Text) : IO FileContent := do
  try
    let bytes ← IO.FS.readBinFile (printed name)
    pure (.bytes bytes.toList)
  catch
    | .noFileOrDirectory _ _ _ => pure .missing
    | .inappropriateType _ code _ =>
      pure (.unreadable (if code = 21 then .isDirectory else .notADirectory))
    | .invalidArgument _ _ _ => pure (.unreadable .nameTooLong)
    | .permissionDenied _ _ _ => pure (.unreadable .forbidden)
    | e => throw e

/-- The standard input of the system. -/
def systemInput : IO (Except Utf8.Fault Text) := do
  let bytes ← readAll (← IO.getStdin) ByteArray.empty
  pure ((Utf8.decode bytes.toList).map Text.unifyLineEnds)

/-- The files and the standard input of the system. -/
def system : Surroundings IO :=
  ⟨systemFile, systemInput, .alike⟩

end CommandLine
end JsonQuery

open JsonQuery

/-- Runs the command line; errors that are left to the caller end the program with code 1. -/
def main (args : List String) : IO UInt32 := do
  let outcome ← CommandLine.session CommandLine.system (args.map Text.ofString)
  IO.print (CommandLine.printed outcome.stdout)
  IO.eprint (CommandLine.printed outcome.stderr)
  match outcome.exit with
  | .code n => pure n.toUInt32
  | .uncaught e =>
    IO.eprintln (CommandLine.printed e.message)
    pure 1
