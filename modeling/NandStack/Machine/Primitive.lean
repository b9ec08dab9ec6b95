import NandStack.Machine

/-!
The nine primitive words. A primitive that lacks operands, or is given an address outside
memory, adds one report and changes nothing else; a refused line is the one failure that has
consumed its operand.
-/

namespace NandStack

inductive Primitive where
  | print
  | drop
  | toReturn
  | fromReturn
  | add
  | nand
  | store
  | fetch
  | isNegative
  deriving DecidableEq, Repr

namespace Primitive

def name : Primitive → String
  | print => "."
  | drop => "drop"
  | toReturn => ">r"
  | fromReturn => "r>"
  | add => "+"
  | nand => "nand"
  | store => "!"
  | fetch => "@"
  | isNegative => "0<"

def ofName? : String → Option Primitive
  | "." => some print
  | "drop" => some drop
  | ">r" => some toReturn
  | "r>" => some fromReturn
  | "+" => some add
  | "nand" => some nand
  | "!" => some store
  | "@" => some fetch
  | "0<" => some isNegative
  | _ => none

@[simp] theorem ofName?_name (primitive : Primitive) : ofName? primitive.name = some primitive := by
  cases primitive <;> rfl

def combine (word : Primitive) (operation : Int64 → Int64 → Int64) (machine : Machine) : Machine :=
  match machine.stack with
  | top :: second :: below => { machine with stack := operation top second :: below }
  | _ => machine.reportUnderflow word.name 2

def runPrint (machine : Machine) : Machine :=
  match machine.stack with
  | value :: below =>
    match machine.sink.writeLine (Decimal.write value) with
    | (sink, none) => { machine with stack := below, sink := sink }
    | (sink, some reason) =>
      { machine with stack := below, sink := sink }.report (.outputFailed reason)
  | [] => machine.reportUnderflow print.name 1

def runDrop (machine : Machine) : Machine :=
  match machine.stack with
  | _ :: below => { machine with stack := below }
  | [] => machine.reportUnderflow drop.name 1

def runToReturn (machine : Machine) : Machine :=
  match machine.stack with
  | value :: below => { machine with stack := below, returnStack := value :: machine.returnStack }
  | [] => machine.reportUnderflow toReturn.name 1

def runFromReturn (machine : Machine) : Machine :=
  match machine.returnStack with
  | value :: below => { machine with stack := value :: machine.stack, returnStack := below }
  | [] => machine.report (.returnStackUnderflow fromReturn.name)

def runStore (machine : Machine) : Machine :=
  match machine.stack with
  | address :: value :: below =>
    match machine.memory.cell? address with
    | some cell => { machine with stack := below, memory := machine.memory.store cell value }
    | none => machine.report (.addressOutOfRange address machine.memory.size)
  | _ => machine.reportUnderflow store.name 2

def runFetch (machine : Machine) : Machine :=
  match machine.stack with
  | address :: below =>
    match machine.memory.cell? address with
    | some cell => { machine with stack := machine.memory.load cell :: below }
    | none => machine.report (.addressOutOfRange address machine.memory.size)
  | [] => machine.reportUnderflow fetch.name 1

def runIsNegative (machine : Machine) : Machine :=
  match machine.stack with
  | value :: below => { machine with stack := (if value < 0 then -1 else 0) :: below }
  | [] => machine.reportUnderflow isNegative.name 1

def run : Primitive → Machine → Machine
  | print => runPrint
  | drop => runDrop
  | toReturn => runToReturn
  | fromReturn => runFromReturn
  | add => add.combine (· + ·)
  | nand => nand.combine fun top second => ~~~(top &&& second)
  | store => runStore
  | fetch => runFetch
  | isNegative => runIsNegative

end Primitive

/-- A name is defined when it is a primitive or a dictionary word; variables do not count. -/
def Machine.isDefined (machine : Machine) (name : String) : Bool :=
  (Primitive.ofName? name).isSome || machine.dictionary.contains name

end NandStack
