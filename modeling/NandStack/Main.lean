import NandStack.Session.CommandLine

/-!
The program: the same steps as a whole run, taken while the lines arrive.
-/

namespace NandStack.Session

/-- Sorts a failure by the system's number, whose sign depends on the layer that reports it. -/
private def readFailure : IO.Error → ReadFailure
  | .noFileOrDirectory .. => .missing
  | .permissionDenied .. => .denied
  | .inappropriateType _ code _ =>
    if code = 20 ∨ code = -20 then .notDirectory else .isDirectory
  | .invalidArgument _ code details =>
    if code = 36 ∨ code = -36 then .nameTooLong else .other details
  | .userError _ => .notUnicode
  | error => .other (toString error)

private def readFile (path : String) : IO (Except ReadFailure String) := do
  try
    return .ok (← IO.FS.readFile path)
  catch error =>
    return .error (readFailure error)

/-- Prompts, reads and answers until the exit line or the end of the input. -/
private partial def converse (input output : IO.FS.Stream) (machine : Machine) : IO Unit := do
  output.putStr prompt
  output.flush
  let line ← input.getLine
  unless line.isEmpty do
    match answer? machine line with
    | none => pure ()
    | some (after, text) =>
      output.putStr text
      converse input output after

/-- The program around a parser of its arguments and an allocator. Its exit code is the result. -/
def main (parse : List String → Except Ending Options) (grants : Nat → Bool)
    (arguments : List String) : IO UInt32 := do
  let output ← IO.getStdout
  match parse arguments with
  | .error ending =>
    output.putStr ending.output
    return ending.code.toUInt32
  | .ok options =>
    match prepare grants options with
    | .error error =>
      IO.eprintln error.message
      return 1
    | .ok machine =>
      let file ← options.file.mapM fun path => return (path, ← readFile path)
      let (loaded, shown) := load machine file
      output.putStr shown
      output.flush
      if options.interactive then
        try
          converse (← IO.getStdin) output loaded
        catch error =>
          IO.eprintln (toString error)
          return 1
      return 0

end NandStack.Session
