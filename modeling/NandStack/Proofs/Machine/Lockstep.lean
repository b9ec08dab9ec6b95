import NandStack.Proofs.Machine.Steps

/-!
Lockstep: two evaluations of one program go through the same moments while their machines are
alike, whatever alike means, up to a step that tells the machines apart. A theorem about two
evaluations needs to look at calls, branches and loops only; everything else is done here.
-/

namespace NandStack

namespace Machine

namespace Configuration

/-- Two moments at one place of a program, with machines that are alike. -/
inductive Alongside (alike : Machine → Machine → Prop) : Configuration → Configuration → Prop where
  | running (program : Program) (pending : List Pending) {first second : Machine}
    (h : alike first second) :
    Alongside alike (running program pending first) (running program pending second)
  | turning (body : Program) (index limit : Int64) (rest : Program) (pending : List Pending)
    {first second : Machine} (h : alike first second) :
    Alongside alike (turning body index limit rest pending first)
      (turning body index limit rest pending second)
  | unwinding (fault : Fault) (pending : List Pending) {first second : Machine}
    (h : alike first second) :
    Alongside alike (unwinding fault pending first) (unwinding fault pending second)
  | finished {first second : Machine} (h : alike first second) :
    Alongside alike (halted (.finished first)) (halted (.finished second))
  | aborted (fault : Fault) {first second : Machine} (h : alike first second) :
    Alongside alike (halted (.aborted fault first)) (halted (.aborted fault second))

/-- Alike machines have the same scopes and depth and stay alike under what a step does without
looking at them. A call, a branch or a loop keeps them alike or leads to moments that are apart. -/
structure Simulation (alike : Machine → Machine → Prop) (apart : Configuration → Configuration → Prop) :
    Prop where
  scopes_eq {first second : Machine} : alike first second → second.scopes = first.scopes
  depth_eq {first second : Machine} : alike first second → second.depth = first.depth
  withScopes {first second : Machine} (scopes : Scopes) : alike first second →
    alike { first with scopes := scopes } { second with scopes := scopes }
  withDepth {first second : Machine} (depth : Nat) : alike first second →
    alike { first with depth := depth } { second with depth := depth }
  push {first second : Machine} (value : Int64) : alike first second →
    alike (first.push value) (second.push value)
  define {first second : Machine} (name : String) (body : Program) : alike first second →
    alike (first.define name body) (second.define name body)
  declare {first second : Machine} (name : String) : alike first second →
    alike (first.declare name) (second.declare name)
  call {first second : Machine} (name : String) (rest : Program) (pending : List Pending) :
    alike first second →
    Alongside alike (call name rest pending first) (call name rest pending second) ∨
      apart (call name rest pending first) (call name rest pending second)
  branch {first second : Machine} (onTrue onFalse rest : Program) (pending : List Pending) :
    alike first second →
    Alongside alike (branch onTrue onFalse rest pending first)
        (branch onTrue onFalse rest pending second) ∨
      apart (branch onTrue onFalse rest pending first) (branch onTrue onFalse rest pending second)
  loop {first second : Machine} (body rest : Program) (pending : List Pending) :
    alike first second →
    Alongside alike (loop body rest pending first) (loop body rest pending second) ∨
      apart (loop body rest pending first) (loop body rest pending second)

theorem iterate_halted {configuration : Configuration} {steps : Nat} {outcome : Outcome Fault}
    (h : Configuration.step^[steps] configuration = halted outcome) (more : Nat) :
    Configuration.step^[more + steps] configuration = halted outcome := by
  rw [Function.iterate_add_apply,h]
  exact Function.iterate_fixed rfl more

/-- Two evaluations come to their outcomes after some common number of steps. -/
theorem halted_together (machine other : Machine) (program altered : Program) :
    ∃ steps, Configuration.step^[steps] (running program [] machine) = halted (machine.evaluate program) ∧
      Configuration.step^[steps] (running altered [] other) = halted (other.evaluate altered) := by
  obtain ⟨steps,h⟩ := leads_halted machine program
  obtain ⟨more,h'⟩ := leads_halted other altered
  refine ⟨more + steps,iterate_halted h more,?_⟩
  rw [Nat.add_comm]
  exact iterate_halted h' steps

variable {alike : Machine → Machine → Prop} {apart : Configuration → Configuration → Prop}

/-- Outcomes that come up alongside are of one kind, with the same fault if they are aborted. -/
theorem Alongside.of_halted {first second : Outcome Fault}
    (h : Alongside alike (halted first) (halted second)) :
    alike first.machine second.machine ∧ second.error? = first.error? := by
  cases h with
  | finished h => exact ⟨h,rfl⟩
  | aborted fault h => exact ⟨h,rfl⟩

namespace Simulation

private theorem leave (hs : Simulation alike apart) {first second : Machine} (h : alike first second)
    (pending : List Pending) :
    Alongside alike (leave first pending) (leave second pending) := by
  cases pending with
  | nil => exact .finished h
  | cons item pending =>
    cases item with
    | branch rest => exact .running rest pending h
    | word rest =>
      simp only [Configuration.leave,hs.depth_eq h]
      exact .running rest pending (hs.withDepth _ h)
    | loop body index limit rest => exact .turning body (index + 1) limit rest pending h

private theorem giveUp (hs : Simulation alike apart) (fault : Fault) {first second : Machine}
    (h : alike first second) (pending : List Pending) :
    Alongside alike (giveUp fault first pending) (giveUp fault second pending) := by
  cases pending with
  | nil => exact .aborted fault h
  | cons item pending =>
    cases item with
    | branch rest => exact .unwinding fault pending h
    | word rest =>
      simp only [Configuration.giveUp,hs.depth_eq h]
      exact .unwinding fault pending (hs.withDepth _ h)
    | loop body index limit rest =>
      simp only [Configuration.giveUp,hs.scopes_eq h]
      exact .unwinding fault pending (hs.withScopes _ h)

/-- One common step. -/
theorem step (hs : Simulation alike apart) {first second : Configuration}
    (h : Alongside alike first second) :
    Alongside alike first.step second.step ∨ apart first.step second.step := by
  cases h with
  | running program pending h =>
    cases program with
    | nil => exact .inl (hs.leave h pending)
    | push value rest => exact .inl (.running rest pending (hs.push value h))
    | call name rest => exact hs.call name rest pending h
    | define name body rest => exact .inl (.running rest pending (hs.define name body h))
    | declare name rest => exact .inl (.running rest pending (hs.declare name h))
    | ifThen consequence rest => exact hs.branch consequence .nil rest pending h
    | ifElse consequence alternative rest => exact hs.branch consequence alternative rest pending h
    | loop body rest => exact hs.loop body rest pending h
  | turning body index limit rest pending h =>
    simp only [Configuration.step,hs.scopes_eq h]
    split
    · exact .inl (.running rest pending (hs.withScopes _ h))
    · exact .inl (.running body _ (hs.withScopes _ h))
  | unwinding fault pending h => exact .inl (hs.giveUp fault h pending)
  | finished h => exact .inl (.finished h)
  | aborted fault h => exact .inl (.aborted fault h)

/-- What is apart may be lost for good: then two runs are alongside or lost at every moment. -/
theorem iterate (hs : Simulation alike apart) {lost : Configuration → Configuration → Prop}
    (ha : ∀ {first second}, apart first second → lost first second)
    (hl : ∀ {first second}, lost first second → lost first.step second.step)
    {first second : Configuration} (h : Alongside alike first second) (steps : Nat) :
    Alongside alike (Configuration.step^[steps] first) (Configuration.step^[steps] second) ∨
      lost (Configuration.step^[steps] first) (Configuration.step^[steps] second) := by
  induction steps with
  | zero => exact .inl h
  | succ steps ih =>
    simp only [Function.iterate_succ_apply']
    rcases ih with ih | ih
    · exact (hs.step ih).imp_right ha
    · exact .inr (hl ih)

/-- The outcomes are of one kind, with the same fault, and leave machines that are alike, or the
runs are lost at the end. -/
theorem evaluate (hs : Simulation alike apart) {lost : Configuration → Configuration → Prop}
    (ha : ∀ {first second}, apart first second → lost first second)
    (hl : ∀ {first second}, lost first second → lost first.step second.step)
    {first second : Machine} (h : alike first second) (program : Program) :
    (alike (first.evaluate program).machine (second.evaluate program).machine ∧
        (second.evaluate program).error? = (first.evaluate program).error?) ∨
      lost (halted (first.evaluate program)) (halted (second.evaluate program)) := by
  obtain ⟨steps,he,he'⟩ := halted_together first second program program
  have hi := hs.iterate ha hl (.running program [] h) steps
  rw [he,he'] at hi
  exact hi.imp_left Alongside.of_halted

end Simulation

end Configuration

end Machine

end NandStack
