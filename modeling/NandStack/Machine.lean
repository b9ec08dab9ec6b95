import NandStack.Memory
import NandStack.NameTable
import NandStack.Program
import NandStack.Scopes

/-!
Machines: the whole state that programs act on. Stacks are lists with the top first. Whatever
goes wrong while a program runs is reported while the run goes on, except that calls nested too
deep end it.
-/

namespace NandStack

inductive Fault where
  | stackUnderflow (word : String) (needed found : Nat)
  | returnStackUnderflow (word : String)
  | unknownWord (name : String)
  | addressOutOfRange (address : Int64) (size : Nat)
  | outputFailed (reason : String)
  | nestingTooDeep (limit : Nat)
  deriving DecidableEq, Repr

def Fault.message : Fault → String
  | stackUnderflow word needed found =>
    "stack underflow in `" ++ word ++ "`: needs " ++ needed.repr ++ ", found " ++ found.repr
  | returnStackUnderflow word => "return stack underflow in `" ++ word ++ "`"
  | unknownWord name => "unknown word: " ++ name
  | addressOutOfRange address size =>
    "address " ++ Decimal.write address ++ " is outside memory of " ++ size.repr ++ " cells"
  | outputFailed reason => "failed to write output: " ++ reason
  | nestingTooDeep limit =>
    "word calls nested deeper than " ++ limit.repr ++ " levels, evaluation aborted"

/-- Where printed lines go. A sink takes a line whole or refuses it with a reason, and which of the
two depends on nothing but the number of lines offered to it before. -/
structure Sink where
  /-- The text taken so far and not drained. -/
  written : String
  /-- The number of lines offered so far, refused ones included. -/
  offered : Nat
  /-- The reason for which the line of a number is refused. -/
  refusal : Nat → Option String

namespace Sink

def unlimited : Sink :=
  ⟨"", 0, fun _ => none⟩

def limited (lines : Nat) : Sink :=
  ⟨"", 0, fun number => if number < lines then none else some "sink full"⟩

def writeLine (sink : Sink) (line : String) : Sink × Option String :=
  match sink.refusal sink.offered with
  | none => ({ sink with written := sink.written ++ line ++ "\n", offered := sink.offered + 1 }, none)
  | some reason => ({ sink with offered := sink.offered + 1 }, some reason)

/-- Empties the sink. Draining makes no room for further lines. -/
def drained (sink : Sink) : Sink :=
  { sink with written := "" }

end Sink

structure Machine where
  dictionary : NameTable Program
  -- Quoted, since Mathlib keeps the word for itself.
  «variables» : NameTable Nat
  /-- The address of the next declaration. Declaring counts on past the end of memory. -/
  nextAddress : Nat
  scopes : Scopes
  stack : List Int64
  returnStack : List Int64
  memory : Memory
  sink : Sink
  /-- The number of dictionary calls that are active. -/
  depth : Nat
  maxDepth : Nat
  /-- The faults since the last drain, oldest first. -/
  reports : Array Fault

namespace Machine

def blank (memory : Memory) (sink : Sink) (maxDepth : Nat) : Machine where
  dictionary := .empty
  «variables» := .empty
  nextAddress := 0
  scopes := .empty
  stack := []
  returnStack := []
  memory := memory
  sink := sink
  depth := 0
  maxDepth := maxDepth
  reports := #[]

def report (machine : Machine) (fault : Fault) : Machine :=
  { machine with reports := machine.reports.push fault }

def reportUnderflow (machine : Machine) (word : String) (needed : Nat) : Machine :=
  machine.report (.stackUnderflow word needed machine.stack.length)

def push (machine : Machine) (value : Int64) : Machine :=
  { machine with stack := value :: machine.stack }

def define (machine : Machine) (name : String) (body : Program) : Machine :=
  { machine with dictionary := machine.dictionary.insert name body }

/-- Gives a variable the next address, also when it had one before. Memory is not touched. -/
def declare (machine : Machine) (name : String) : Machine :=
  { machine with
    «variables» := machine.variables.insert name machine.nextAddress
    nextAddress := machine.nextAddress + 1 }

def drainReports (machine : Machine) : Machine :=
  { machine with reports := #[] }

def drainOutput (machine : Machine) : Machine :=
  { machine with sink := machine.sink.drained }

end Machine

end NandStack
