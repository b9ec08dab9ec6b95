import NandStack.Machine.Primitive
import NandStack.Program.OfTokens

/-!
Evaluation of programs. The recursion is over the program inside a recursion over the calls
that may still be nested, and a loop counts its iterations down, so every evaluation ends. An
evaluation is aborted by a call nested too deep and by nothing else. A text is read to its end
before any of it runs, so a text that is no program leaves the machine as it was.
-/

namespace NandStack

/-- How an evaluation ends. Both ways leave a machine that can be used further. -/
inductive Outcome (ε : Type) where
  | finished (machine : Machine)
  | aborted (error : ε) (machine : Machine)

namespace Outcome
variable {ε δ : Type}

@[inline] def andThen (outcome : Outcome ε) (next : Machine → Outcome ε) : Outcome ε :=
  match outcome with
  | finished machine => next machine
  | aborted error machine => aborted error machine

@[inline] def mapMachine (change : Machine → Machine) : Outcome ε → Outcome ε
  | finished machine => finished (change machine)
  | aborted error machine => aborted error (change machine)

def mapError (change : ε → δ) : Outcome ε → Outcome δ
  | finished machine => finished machine
  | aborted error machine => aborted (change error) machine

def machine : Outcome ε → Machine
  | finished machine => machine
  | aborted _ machine => machine

def error? : Outcome ε → Option ε
  | finished _ => none
  | aborted error _ => some error

end Outcome

namespace Machine

def loopIndex : String := "i"

def branch (onTrue onFalse : Machine → Outcome Fault) (machine : Machine) : Outcome Fault :=
  match machine.stack with
  | flag :: below =>
    if flag = 0 then onFalse { machine with stack := below }
    else onTrue { machine with stack := below }
  | [] => .finished (machine.reportUnderflow "if" 1)

/-- Runs a body a number of times with the loop index counting up from `index`. The index is
bound anew before each run and wraps at 64 bits. -/
def iterate (body : Machine → Outcome Fault) : Nat → Int64 → Machine → Outcome Fault
  | 0, _, machine => .finished machine
  | count + 1, index, machine =>
    (body { machine with scopes := machine.scopes.set loopIndex index }).andThen
      (iterate body count (index + 1))

/-- The number of steps of one from a start up to a limit, around the end of the 64-bit range
if the limit is below. -/
def distance (start limit : Int64) : Nat :=
  (limit - start).toUInt64.toNat

/-- Pops limit and start and runs a body for every index from the start up to but not
including the limit, in a frame that is dropped however the loop ends. -/
def countedLoop (body : Machine → Outcome Fault) (machine : Machine) : Outcome Fault :=
  match machine.stack with
  | limit :: start :: below =>
    (iterate body (distance start limit) start
      { machine with stack := below, scopes := machine.scopes.enclose loopIndex start }).mapMachine
      fun machine => { machine with scopes := machine.scopes.unenclose }
  | _ => .finished (machine.reportUnderflow "do" 2)

/-- Runs the meaning of a name: a primitive, else the innermost binding, else a dictionary word,
which `enter` runs, else the address of a variable. -/
def call (enter : Program → Machine → Outcome Fault) (name : String) (machine : Machine) :
    Outcome Fault :=
  match Primitive.ofName? name with
  | some primitive => .finished (primitive.run machine)
  | none =>
    match machine.scopes.get? name with
    | some value => .finished (machine.push value)
    | none =>
      match machine.dictionary.find? name with
      | some body => enter body machine
      | none =>
        match machine.variables.find? name with
        | some address => .finished (machine.push (Int64.ofNat address))
        | none => .finished (machine.report (.unknownWord name))

def run (enter : Program → Machine → Outcome Fault) : Program → Machine → Outcome Fault
  | .nil, machine => .finished machine
  | .push value rest, machine => run enter rest (machine.push value)
  | .call name rest, machine => (machine.call enter name).andThen (run enter rest)
  | .define name body rest, machine => run enter rest (machine.define name body)
  | .declare name rest, machine => run enter rest (machine.declare name)
  | .ifThen consequence rest, machine =>
    (machine.branch (run enter consequence) .finished).andThen (run enter rest)
  | .ifElse consequence alternative rest, machine =>
    (machine.branch (run enter consequence) (run enter alternative)).andThen (run enter rest)
  | .loop body rest, machine => (machine.countedLoop (run enter body)).andThen (run enter rest)

/-- Runs a program in which at most `levels` further dictionary calls may be active at once.
Only these calls count: branches and loops nest freely. -/
def runWithin : Nat → Program → Machine → Outcome Fault
  | 0 => run fun _ machine => .aborted (.nestingTooDeep machine.maxDepth) machine
  | levels + 1 => run fun body machine =>
    (runWithin levels body { machine with depth := machine.depth + 1 }).mapMachine
      fun machine => { machine with depth := machine.depth - 1 }

def evaluate (machine : Machine) (program : Program) : Outcome Fault :=
  runWithin (machine.maxDepth - machine.depth) program machine

end Machine

inductive EvalError where
  | parse (error : ParseError)
  | runtime (fault : Fault)
  | memoryTooLarge (cells reserved : Nat)
  deriving DecidableEq, Repr

def EvalError.message : EvalError → String
  | parse error => "parse error: " ++ error.message
  | runtime fault => fault.message
  | memoryTooLarge cells reserved =>
    "cannot allocate " ++ cells.repr ++ " cells plus " ++ reserved.repr ++ " reserved"

def Machine.evaluateSource (machine : Machine) (source : String) : Outcome EvalError :=
  match Program.ofSource source with
  | .ok program => (machine.evaluate program).mapError .runtime
  | .error error => .aborted (.parse error) machine

end NandStack
