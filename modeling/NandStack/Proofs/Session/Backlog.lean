import NandStack.Proofs.Machine.Peripherals
import NandStack.Proofs.Machine.Pieces

/-!
Backlogs: text and reports that are waiting to be shown. They stay in front of all that is printed and
reported later and have no influence on it, so that showing them early changes nothing.
-/

namespace NandStack.Machine

/-- Nothing is waiting to be shown any more. -/
def drained (machine : Machine) : Machine :=
  { machine with reports := #[], sink := { machine.sink with written := "" } }

def behind (text : String) (reports : Array Fault) (machine : Machine) : Machine :=
  { machine with
    sink := { machine.sink with written := text ++ machine.sink.written }
    reports := reports ++ machine.reports }

variable (text : String) (reports : Array Fault)

theorem stack_drained (machine : Machine) : machine.drained.stack = machine.stack :=
  rfl

@[simp] theorem drained_behind (machine : Machine) : (machine.behind text reports).drained = machine.drained :=
  rfl

@[simp] theorem behind_drained (machine : Machine) :
    machine.drained.behind machine.sink.written machine.reports = machine := by
  simp only [behind,drained,String.append_empty,Array.append_empty]

private theorem compatible_behind :
    Compatible (Changed fun held => { held with
      sink := { held.sink with written := text ++ held.sink.written }
      reports := reports ++ held.reports }) fun _ => False := by
  apply compatible_of_memory_eq
  · rintro held _ rfl
    rfl
  · rintro held _ memory rfl
    rfl
  · rintro held _ fault rfl
    simp only [Changed,Peripherals.report,Array.push_append]
  · rintro held _ line rfl
    simp only [Changed,Peripherals.offer,Sink.writeLine]
    cases held.sink.refusal held.sink.offered with
    | none => simp only [String.append_assoc]
    | some reason => simp only [Peripherals.report,Array.push_append]

private theorem evaluate_behind (machine : Machine) (program : Program) :
    (machine.behind text reports).evaluate program =
      (machine.evaluate program).mapMachine (behind text reports) :=
  evaluate_mapPeripherals (compatible_behind text reports) id not_false

private theorem evaluateSource_behind (machine : Machine) (source : String) :
    (machine.behind text reports).evaluateSource source =
      (machine.evaluateSource source).mapMachine (behind text reports) :=
  evaluateSource_mapMachine fun program _ => evaluate_behind text reports machine program

/-- Whatever is waiting, a text is evaluated as if nothing was. -/
theorem evaluateSource_eq_behind (machine : Machine) (source : String) :
    machine.evaluateSource source = (machine.drained.evaluateSource source).mapMachine
      (behind machine.sink.written machine.reports) := by
  rw [← evaluateSource_behind,behind_drained]

end NandStack.Machine
