import NandStack.Proofs.Machine.Tables
import NandStack.Proofs.Memory

/-!
Reports: a step reports one fault at most, and what it reports is so at that moment. The fault that
aborts evaluations is never reported.
-/

namespace NandStack

/-- What a fault says is so on the machine. -/
def Fault.TrueOf (machine : Machine) : Fault → Prop
  | stackUnderflow _ needed found =>
    found = machine.stack.length ∧ found < needed ∧ needed ≤ 2
  | returnStackUnderflow _ => machine.returnStack = []
  | unknownWord name => machine.meaning name = .unknown
  | addressOutOfRange address size =>
    machine.stack.head? = some address ∧ size = machine.memory.size ∧
      (address.toInt < 0 ∨ size ≤ address.toInt)
  | outputFailed reason => machine.sink.refusal machine.sink.offered = some reason
  | nestingTooDeep _ => False

namespace Machine

/-- From one machine to the next nothing is reported, or one fault that is so before. Reports name the
size of the memory, which stays the same. -/
structure Truthful (before after : Machine) : Prop where
  size_eq : after.memory.size = before.memory.size
  reports : after.reports = before.reports ∨
    ∃ fault : Fault, fault.TrueOf before ∧ after.reports = before.reports.push fault

namespace Truthful

private theorem of_eq {before after : Machine} (hs : after.memory.size = before.memory.size)
    (hr : after.reports = before.reports) : Truthful before after :=
  ⟨hs,.inl hr⟩

private theorem report {machine : Machine} {fault : Fault} (h : fault.TrueOf machine) :
    Truthful machine (machine.report fault) :=
  ⟨rfl,.inr ⟨fault,h,rfl⟩⟩

private theorem underflow {machine : Machine} (word : String) {needed : Nat}
    (h : machine.stack.length < needed) (hn : needed ≤ 2) :
    Truthful machine (machine.reportUnderflow word needed) :=
  .report ⟨rfl,h,hn⟩

end Truthful

private theorem truthful_combine (word : Primitive) (operation : Int64 → Int64 → Int64) (machine : Machine) :
    Truthful machine (word.combine operation machine) := by
  rcases machine with ⟨_,_,_,_,_ | ⟨top,_ | ⟨second,rest⟩⟩,_,_,_,_,_,_⟩
  · exact .underflow _ Nat.two_pos (Nat.le_refl 2)
  · exact .underflow _ (Nat.le_refl 2) (Nat.le_refl 2)
  · exact .of_eq rfl rfl

private theorem truthful_print (machine : Machine) : Truthful machine (Primitive.runPrint machine) := by
  rcases machine with ⟨_,_,_,_,_ | ⟨value,rest⟩,_,_,sink,_,_,_⟩
  · exact .underflow _ Nat.one_pos (Nat.le_succ 1)
  · simp only [Primitive.runPrint,Sink.writeLine]
    cases hs : sink.refusal sink.offered with
    | none => exact .of_eq rfl rfl
    | some reason => exact ⟨rfl,.inr ⟨.outputFailed reason,hs,rfl⟩⟩

private theorem truthful_store (machine : Machine) : Truthful machine (Primitive.runStore machine) := by
  rcases machine with ⟨_,_,_,_,_ | ⟨address,_ | ⟨value,rest⟩⟩,_,memory,_,_,_,_⟩
  · exact .underflow _ Nat.two_pos (Nat.le_refl 2)
  · exact .underflow _ (Nat.le_refl 2) (Nat.le_refl 2)
  · simp only [Primitive.runStore]
    cases hc : memory.cell? address with
    | none => exact .report ⟨rfl,rfl,Memory.cell?_eq_none_iff.mp hc⟩
    | some cell => exact .of_eq (memory.size_store cell value) rfl

private theorem truthful_fetch (machine : Machine) : Truthful machine (Primitive.runFetch machine) := by
  rcases machine with ⟨_,_,_,_,_ | ⟨address,rest⟩,_,memory,_,_,_,_⟩
  · exact .underflow _ Nat.one_pos (Nat.le_succ 1)
  · simp only [Primitive.runFetch]
    cases hc : memory.cell? address with
    | none => exact .report ⟨rfl,rfl,Memory.cell?_eq_none_iff.mp hc⟩
    | some cell => exact .of_eq rfl rfl

theorem truthful_primitive (primitive : Primitive) (machine : Machine) :
    Truthful machine (primitive.run machine) := by
  cases primitive with
  | print => exact truthful_print machine
  | store => exact truthful_store machine
  | fetch => exact truthful_fetch machine
  | add | nand => exact truthful_combine _ _ machine
  | drop | toReturn | isNegative =>
    rcases machine with ⟨_,_,_,_,_ | ⟨value,rest⟩,_,_,_,_,_,_⟩
    · exact .underflow _ Nat.one_pos (Nat.le_succ 1)
    · exact .of_eq rfl rfl
  | fromReturn =>
    rcases machine with ⟨_,_,_,_,_,_ | ⟨value,rest⟩,_,_,_,_,_⟩
    · exact .report rfl
    · exact .of_eq rfl rfl

namespace Configuration

private theorem truthful_call (name : String) (rest : Program) (pending : List Pending) (machine : Machine) :
    Truthful machine (call name rest pending machine).machine := by
  unfold call
  cases hm : machine.meaning name with
  | primitive primitive => exact truthful_primitive primitive machine
  | word word =>
    dsimp only [enter]
    split <;> exact .of_eq rfl rfl
  | unknown => exact .report hm
  | binding | address => exact .of_eq rfl rfl

private theorem truthful_branch (onTrue onFalse rest : Program) (pending : List Pending)
    (machine : Machine) :
    Truthful machine (branch onTrue onFalse rest pending machine).machine := by
  rcases machine with ⟨_,_,_,_,_ | ⟨flag,stack⟩,_,_,_,_,_,_⟩
  · exact .underflow _ Nat.one_pos (Nat.le_succ 1)
  · exact .of_eq rfl rfl

private theorem truthful_loop (body rest : Program) (pending : List Pending) (machine : Machine) :
    Truthful machine (loop body rest pending machine).machine := by
  rcases machine with ⟨_,_,_,_,_ | ⟨limit,_ | ⟨start,stack⟩⟩,_,_,_,_,_,_⟩
  · exact .underflow _ Nat.two_pos (Nat.le_refl 2)
  · exact .underflow _ (Nat.le_refl 2) (Nat.le_refl 2)
  · exact .of_eq rfl rfl

/-- No step reports what is not so. -/
theorem truthful_step (configuration : Configuration) :
    Truthful configuration.machine configuration.step.machine := by
  cases configuration with
  | running program pending machine =>
    cases program with
    | nil => rcases pending with _ | ⟨_ | _ | _,pending⟩ <;> exact .of_eq rfl rfl
    | push | define | declare => exact .of_eq rfl rfl
    | call name rest => exact truthful_call name rest pending machine
    | ifThen consequence rest => exact truthful_branch consequence .nil rest pending machine
    | ifElse consequence alternative rest =>
      exact truthful_branch consequence alternative rest pending machine
    | loop body rest => exact truthful_loop body rest pending machine
  | turning body index limit rest pending machine =>
    rw [step]
    split <;> exact .of_eq rfl rfl
  | unwinding fault pending machine =>
    rcases pending with _ | ⟨_ | _ | _,pending⟩ <;> exact .of_eq rfl rfl
  | halted outcome => exact .of_eq rfl rfl

end Configuration

end Machine

end NandStack
