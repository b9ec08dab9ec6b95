import NandStack.Machine.Primitive

/-!
Operands: a primitive works on the stacks, the memory, the sink and the reports. It neither looks
at the tables, the scopes and the depth nor changes them.
-/

namespace NandStack.Machine

/-- The operands of a machine among the tables, the scopes and the depth of another one. -/
def amid (other machine : Machine) : Machine :=
  { other with
    stack := machine.stack
    returnStack := machine.returnStack
    memory := machine.memory
    sink := machine.sink
    reports := machine.reports }

theorem primitive_amid (primitive : Primitive) (other machine : Machine) :
    primitive.run (amid other machine) = amid other (primitive.run machine) := by
  cases primitive with
  | print =>
    simp only [Primitive.run,Primitive.runPrint,Sink.writeLine,amid]
    split
    · cases machine.sink.refusal machine.sink.offered <;> rfl
    · rfl
  | store | fetch =>
    simp only [Primitive.run,Primitive.runStore,Primitive.runFetch,amid]
    split
    · split <;> rfl
    · rfl
  | drop | toReturn | fromReturn | add | nand | isNegative =>
    simp only [Primitive.run,Primitive.combine,Primitive.runDrop,Primitive.runToReturn,
      Primitive.runFromReturn,Primitive.runIsNegative,amid]
    split <;> rfl

/-- What a primitive does not work on stays as it was. -/
theorem amid_primitive (primitive : Primitive) (machine : Machine) :
    amid machine (primitive.run machine) = primitive.run machine :=
  (primitive_amid primitive machine machine).symm

/-- A change of anything else may come before a primitive or after it. -/
theorem primitive_change (change : Machine → Machine)
    (hc : ∀ other machine, change (amid other machine) = amid (change other) machine)
    (primitive : Primitive) (machine : Machine) :
    primitive.run (change machine) = change (primitive.run machine) := by
  calc primitive.run (change machine)
      = primitive.run (amid (change machine) machine) := congrArg primitive.run (hc machine machine)
    _ = amid (change machine) (primitive.run machine) := primitive_amid primitive _ machine
    _ = change (amid machine (primitive.run machine)) := (hc machine _).symm
    _ = change (primitive.run machine) := congrArg change (amid_primitive primitive machine)

end NandStack.Machine
