import NandStack.Machine.Evaluate
import NandStack.Proofs.Machine.Operands

/-!
Unwinding: however a program ends, the scopes and the depth are those it began with. Loops and
calls change them on the way, each in balance.
-/

namespace NandStack

namespace Outcome
variable {ε δ : Type}

@[simp] theorem machine_mapMachine (change : Machine → Machine) (outcome : Outcome ε) :
    (outcome.mapMachine change).machine = change outcome.machine := by
  cases outcome <;> rfl

@[simp] theorem machine_mapError (change : ε → δ) (outcome : Outcome ε) :
    (outcome.mapError change).machine = outcome.machine := by
  cases outcome <;> rfl

@[simp] theorem error?_mapError (change : ε → δ) (outcome : Outcome ε) :
    (outcome.mapError change).error? = outcome.error?.map change := by
  cases outcome <;> rfl

@[simp] theorem error?_mapMachine (change : Machine → Machine) (outcome : Outcome ε) :
    (outcome.mapMachine change).error? = outcome.error? := by
  cases outcome <;> rfl

theorem mapMachine_mapMachine (change further : Machine → Machine) (outcome : Outcome ε) :
    (outcome.mapMachine change).mapMachine further =
      outcome.mapMachine fun machine => further (change machine) := by
  cases outcome <;> rfl

theorem andThen_finished (outcome : Outcome ε) : outcome.andThen .finished = outcome := by
  cases outcome <;> rfl

theorem andThen_assoc (outcome : Outcome ε) (next last : Machine → Outcome ε) :
    (outcome.andThen next).andThen last = outcome.andThen fun machine => (next machine).andThen last := by
  cases outcome <;> rfl

/-- An outcome is its machine together with its error, if there is one. -/
theorem ext {first second : Outcome ε} (hm : first.machine = second.machine)
    (he : first.error? = second.error?) : first = second := by
  cases first <;> cases second <;> cases hm <;> cases he <;> rfl

theorem eq_finished {outcome : Outcome ε} (h : outcome.error? = none) :
    outcome = finished outcome.machine :=
  ext rfl h

theorem eq_aborted {outcome : Outcome ε} {error : ε} (h : outcome.error? = some error) :
    outcome = aborted error outcome.machine :=
  ext rfl h

end Outcome

namespace Machine

inductive Meaning where
  | primitive (primitive : Primitive)
  | binding (value : Int64)
  | word (body : Program)
  | address (address : Nat)
  | unknown

/-- Primitives come first, then the innermost binding, dictionary words and variables. -/
def meaning (machine : Machine) (name : String) : Meaning :=
  match Primitive.ofName? name, machine.scopes.get? name, machine.dictionary.find? name,
    machine.variables.find? name with
  | some primitive, _, _, _ => .primitive primitive
  | none, some value, _, _ => .binding value
  | none, none, some body, _ => .word body
  | none, none, none, some address => .address address
  | none, none, none, none => .unknown

theorem meaning_of_get? {machine : Machine} {name : String} {value : Int64}
    (hp : Primitive.ofName? name = none) (hs : machine.scopes.get? name = some value) :
    machine.meaning name = .binding value := by
  rw [meaning,hp,hs]

/-- A call depends on the name through its meaning only. -/
theorem call_eq_meaning (enter : Program → Machine → Outcome Fault) (name : String)
    (machine : Machine) :
    machine.call enter name =
      match machine.meaning name with
      | .primitive primitive => .finished (primitive.run machine)
      | .binding value => .finished (machine.push value)
      | .word body => enter body machine
      | .address address => .finished (machine.push (Int64.ofNat address))
      | .unknown => .finished (machine.report (.unknownWord name)) := by
  unfold call meaning
  cases Primitive.ofName? name with
  | some primitive => rfl
  | none =>
    cases machine.scopes.get? name with
    | some value => rfl
    | none =>
      cases machine.dictionary.find? name with
      | some body => rfl
      | none => cases machine.variables.find? name <;> rfl

/-- The second machine has what the first one has of scopes and depth. The limit is kept too,
as the depth means nothing without it. -/
structure Unwound (before after : Machine) : Prop where
  scopes : after.scopes = before.scopes
  depth : after.depth = before.depth
  maxDepth : after.maxDepth = before.maxDepth

namespace Unwound

theorem refl (machine : Machine) : Unwound machine machine :=
  ⟨rfl,rfl,rfl⟩

theorem finished (machine : Machine) : Unwound machine (.finished machine : Outcome Fault).machine :=
  .refl machine

theorem trans {first second third : Machine} (h : Unwound first second)
    (h' : Unwound second third) : Unwound first third :=
  ⟨h'.scopes.trans h.scopes,h'.depth.trans h.depth,h'.maxDepth.trans h.maxDepth⟩

private theorem andThen {before : Machine} {outcome : Outcome Fault} {next : Machine → Outcome Fault}
    (h : Unwound before outcome.machine) (hn : ∀ machine, Unwound machine (next machine).machine) :
    Unwound before (outcome.andThen next).machine := by
  cases outcome with
  | finished machine => exact h.trans (hn machine)
  | aborted fault machine => exact h

/-- As many calls may be nested as before. -/
theorem levels {before after : Machine} (h : Unwound before after) :
    after.maxDepth - after.depth = before.maxDepth - before.depth := by
  rw [h.maxDepth,h.depth]

/-- A call is in balance if its body is. -/
theorem deeper {machine : Machine} {outcome : Outcome Fault}
    (h : Unwound { machine with depth := machine.depth + 1 } outcome.machine) :
    Unwound machine (outcome.mapMachine fun machine =>
      { machine with depth := machine.depth - 1 }).machine := by
  rw [Outcome.machine_mapMachine]
  exact ⟨h.scopes,congrArg (· - 1) h.depth,h.maxDepth⟩

end Unwound

theorem unwound_primitive (primitive : Primitive) (machine : Machine) :
    Unwound machine (primitive.run machine) := by
  rw [← amid_primitive]
  exact ⟨rfl,rfl,rfl⟩

section
variable {enter : Program → Machine → Outcome Fault} {body : Machine → Outcome Fault}

theorem unwound_call (he : ∀ word machine, Unwound machine (enter word machine).machine)
    (name : String) (machine : Machine) : Unwound machine (machine.call enter name).machine := by
  rw [call_eq_meaning]
  cases machine.meaning name with
  | primitive primitive => exact unwound_primitive primitive machine
  | word body => exact he body machine
  | binding | address | unknown => exact ⟨rfl,rfl,rfl⟩

theorem unwound_branch {onTrue onFalse : Machine → Outcome Fault}
    (ht : ∀ machine, Unwound machine (onTrue machine).machine)
    (hf : ∀ machine, Unwound machine (onFalse machine).machine) (machine : Machine) :
    Unwound machine (machine.branch onTrue onFalse).machine := by
  unfold branch
  split
  · rename_i below _
    split
    · exact (show Unwound machine { machine with stack := below } from ⟨rfl,rfl,rfl⟩).trans (hf _)
    · exact (show Unwound machine { machine with stack := below } from ⟨rfl,rfl,rfl⟩).trans (ht _)
  · exact ⟨rfl,rfl,rfl⟩

private theorem unwound_iterate (hb : ∀ machine, Unwound machine (body machine).machine) (count : Nat)
    (index held : Int64) (outer : Scopes) (machine : Machine)
    (hs : machine.scopes = outer.enclose loopIndex held) :
    ∃ last, Unwound { machine with scopes := outer.enclose loopIndex last }
      (iterate body count index machine).machine := by
  induction count generalizing index held machine with
  | zero => exact ⟨held,hs,rfl,rfl⟩
  | succ count ih =>
    have hset : machine.scopes.set loopIndex index = outer.enclose loopIndex index := by
      rw [hs,Scopes.set_enclose]
    have hr := hb { machine with scopes := machine.scopes.set loopIndex index }
    rw [iterate]
    cases ho : body { machine with scopes := machine.scopes.set loopIndex index } with
    | aborted fault after =>
      rw [ho] at hr
      exact ⟨index,hr.scopes.trans hset,hr.depth,hr.maxDepth⟩
    | finished after =>
      rw [ho] at hr
      obtain ⟨last,hl⟩ := ih (index+1) index after (hr.scopes.trans hset)
      exact ⟨last,hl.scopes,hl.depth.trans hr.depth,hl.maxDepth.trans hr.maxDepth⟩

theorem unwound_countedLoop (hb : ∀ machine, Unwound machine (body machine).machine)
    (machine : Machine) : Unwound machine (machine.countedLoop body).machine := by
  unfold countedLoop
  split
  · rename_i limit start below _
    obtain ⟨last,hl⟩ := unwound_iterate hb (distance start limit) start start machine.scopes
      { machine with stack := below, scopes := machine.scopes.enclose loopIndex start } rfl
    rw [Outcome.machine_mapMachine]
    exact ⟨congrArg Scopes.unenclose hl.scopes,hl.depth,hl.maxDepth⟩
  · exact ⟨rfl,rfl,rfl⟩

/-- A program is unwound if the words it calls are. -/
theorem unwound_run (he : ∀ word machine, Unwound machine (enter word machine).machine)
    (program : Program) (machine : Machine) : Unwound machine (run enter program machine).machine := by
  induction program generalizing machine with
  | nil => exact .refl machine
  | push value rest ih =>
    exact (show Unwound machine (machine.push value) from ⟨rfl,rfl,rfl⟩).trans (ih _)
  | call name rest ih => exact (unwound_call he name machine).andThen ih
  | define name word rest _ ih =>
    exact (show Unwound machine (machine.define name word) from ⟨rfl,rfl,rfl⟩).trans (ih _)
  | declare name rest ih =>
    exact (show Unwound machine (machine.declare name) from ⟨rfl,rfl,rfl⟩).trans (ih _)
  | ifThen consequence rest ihc ih => exact (unwound_branch ihc .finished machine).andThen ih
  | ifElse consequence alternative rest ihc iha ih =>
    exact (unwound_branch ihc iha machine).andThen ih
  | loop body rest ihb ih => exact (unwound_countedLoop ihb machine).andThen ih

end

theorem unwound_runWithin (levels : Nat) (program : Program) (machine : Machine) :
    Unwound machine (runWithin levels program machine).machine := by
  induction levels generalizing program machine with
  | zero =>
    refine unwound_run ?_ program machine
    intro word machine
    exact .refl machine
  | succ levels ih =>
    refine unwound_run ?_ program machine
    intro word machine
    exact (ih word _).deeper

/-- Every evaluation is unwound, finished or aborted. -/
theorem unwound_evaluate (machine : Machine) (program : Program) :
    Unwound machine (machine.evaluate program).machine :=
  unwound_runWithin _ program machine

end Machine

end NandStack
