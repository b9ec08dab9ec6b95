import NandStack.Proofs.Machine.Turns

/-!
Sequences: a program followed by another one is evaluated as the first and then, if that finishes,
the second. Nothing of the first is left over but the machine.
-/

namespace NandStack

namespace Outcome
variable {ε : Type}

/-- What goes on to a finish has finished before. -/
theorem finished_of_andThen {outcome : Outcome ε} {next : Machine → Outcome ε} {after : Machine}
    (h : outcome.andThen next = .finished after) :
    ∃ between, outcome = .finished between ∧ next between = .finished after := by
  cases outcome with
  | finished between => exact ⟨between,rfl,h⟩
  | aborted error between => cases h

theorem finished_of_mapMachine {outcome : Outcome ε} {change : Machine → Machine} {after : Machine}
    (h : outcome.mapMachine change = .finished after) :
    ∃ before, outcome = .finished before ∧ change before = after := by
  cases outcome with
  | finished before => exact ⟨before,rfl,finished.inj h⟩
  | aborted error before => cases h

end Outcome

namespace Machine

theorem run_append (enter : Program → Machine → Outcome Fault) (first second : Program)
    (machine : Machine) :
    run enter (first.append second) machine =
      (run enter first machine).andThen (run enter second) := by
  induction first generalizing machine with
  | nil => rfl
  | push value rest ih => exact ih _
  | define name body rest _ ih => exact ih _
  | declare name rest ih => exact ih _
  | call name rest ih | ifThen consequence rest _ ih | ifElse consequence alternative rest _ _ ih
  | loop body rest _ ih =>
    simp only [Program.append,run]
    rw [Outcome.andThen_assoc]
    congr 1
    funext after
    exact ih after

/-- The second program has the levels of the first, as that one leaves no call active. -/
theorem evaluate_append (machine : Machine) (first second : Program) :
    machine.evaluate (first.append second) =
      (machine.evaluate first).andThen fun after => after.evaluate second := by
  have hu := unwound_evaluate machine first
  simp only [evaluate,runWithin_eq_run] at hu ⊢
  rw [run_append]
  cases hr : run (enterWithin (machine.maxDepth - machine.depth)) first machine with
  | aborted fault after => rfl
  | finished after =>
    rw [hr] at hu
    have hl : after.maxDepth - after.depth = machine.maxDepth - machine.depth := hu.levels
    simp only [Outcome.andThen,hl]

end Machine

end NandStack
