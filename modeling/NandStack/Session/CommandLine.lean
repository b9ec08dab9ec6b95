import NandStack.Session

/-!
Whole runs of the program: its standard output and exit code as functions of the arguments, the
files and the standard input. How arguments are written is left to a parser.
-/

namespace NandStack.Session

structure Ending where
  output : String
  code : Nat
  deriving DecidableEq, Repr

structure Options where
  file : Option String
  interactive : Bool
  cells : Option Nat
  maxDepth : Option Nat
  deriving DecidableEq, Repr

/-- Why a file could not be read, in the system's words and with its numbers. -/
inductive ReadFailure where
  | missing
  | denied
  | notDirectory
  | isDirectory
  | nameTooLong
  | notUnicode
  | other (reason : String)
  deriving DecidableEq, Repr

def ReadFailure.message : ReadFailure → String
  | missing => "No such file or directory (os error 2)"
  | denied => "Permission denied (os error 13)"
  | notDirectory => "Not a directory (os error 20)"
  | isDirectory => "Is a directory (os error 21)"
  | nameTooLong => "File name too long (os error 36)"
  | notUnicode => "stream did not contain valid UTF-8"
  | other reason => reason

def prepare (grants : Nat → Bool) (options : Options) : Except EvalError Machine :=
  Machine.create grants
    { MachineSizes.default with
      cells := options.cells.getD MachineSizes.default.cells
      maxDepth := options.maxDepth.getD MachineSizes.default.maxDepth }
    .unlimited

/-- Evaluates a file, if there is one. A file that cannot be read is named with the reason, and
the session goes on. -/
def load (machine : Machine) : Option (String × Except ReadFailure String) → Machine × String
  | none => (machine, "")
  | some (_, .ok source) => respond machine source
  | some (path, .error failure) => (machine, path ++ ": " ++ failure.message ++ "\n")

def hold (machine : Machine) (file : Option (String × Except ReadFailure String))
    (interactive : Bool) (input : String) : String :=
  let (loaded, shown) := load machine file
  shown ++ (if interactive then dialogue loaded (lines input) else "")

/-- A run. The parser may end it at once, with an output and a code of its own, as it does for
arguments that it refuses; a machine that cannot be had ends it without any output. -/
def run (parse : List String → Except Ending Options) (grants : Nat → Bool)
    (readFile : String → Except ReadFailure String) (arguments : List String) (input : String) :
    Ending :=
  match parse arguments with
  | .error ending => ending
  | .ok options =>
    match prepare grants options with
    | .error _ => ⟨"", 1⟩
    | .ok machine =>
      let file := options.file.map fun path => (path, readFile path)
      ⟨hold machine file options.interactive input, 0⟩

end NandStack.Session
