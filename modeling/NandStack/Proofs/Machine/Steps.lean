import Mathlib.Logic.Function.Iterate
import NandStack.Proofs.Machine.Unwinding

/-!
Evaluation step by step. No step runs a body: words and loops are entered and left by steps of
their own, a loop compares its index with its limit before each turn, and what remains to be done
stands in an explicit list. Every evaluation takes finitely many of these steps.
-/

namespace NandStack.Machine

/-- What goes on when a body ends: the nodes behind a branch, the nodes behind a dictionary call,
or the next turn of a loop. -/
inductive Pending where
  | branch (rest : Program)
  | word (rest : Program)
  | loop (body : Program) (index limit : Int64) (rest : Program)

/-- A moment of an evaluation. The pending work is listed innermost first. -/
inductive Configuration where
  | running (program : Program) (pending : List Pending) (machine : Machine)
  /-- A loop is about to compare its index with its limit. -/
  | turning (body : Program) (index limit : Int64) (rest : Program) (pending : List Pending)
    (machine : Machine)
  /-- A fault gives up all that is pending. -/
  | unwinding (fault : Fault) (pending : List Pending) (machine : Machine)
  | halted (outcome : Outcome Fault)

namespace Configuration

/-- Enters a dictionary word, unless the calls that are active reach the limit. -/
def enter (word rest : Program) (pending : List Pending) (machine : Machine) : Configuration :=
  if machine.depth ≥ machine.maxDepth then
    unwinding (.nestingTooDeep machine.maxDepth) pending machine
  else running word (.word rest :: pending) { machine with depth := machine.depth + 1 }

def call (name : String) (rest : Program) (pending : List Pending) (machine : Machine) :
    Configuration :=
  match machine.meaning name with
  | .primitive primitive => running rest pending (primitive.run machine)
  | .binding value => running rest pending (machine.push value)
  | .word word => enter word rest pending machine
  | .address address => running rest pending (machine.push (Int64.ofNat address))
  | .unknown => running rest pending (machine.report (.unknownWord name))

def branch (onTrue onFalse rest : Program) (pending : List Pending) (machine : Machine) :
    Configuration :=
  match machine.stack with
  | flag :: below =>
    running (if flag = 0 then onFalse else onTrue) (.branch rest :: pending)
      { machine with stack := below }
  | [] => running rest pending (machine.reportUnderflow "if" 1)

def loop (body rest : Program) (pending : List Pending) (machine : Machine) : Configuration :=
  match machine.stack with
  | limit :: start :: below =>
    turning body start limit rest pending
      { machine with stack := below, scopes := machine.scopes.enclose loopIndex start }
  | _ => running rest pending (machine.reportUnderflow "do" 2)

def leave (machine : Machine) : List Pending → Configuration
  | [] => halted (.finished machine)
  | .branch rest :: pending => running rest pending machine
  | .word rest :: pending => running rest pending { machine with depth := machine.depth - 1 }
  | .loop body index limit rest :: pending => turning body (index + 1) limit rest pending machine

def giveUp (fault : Fault) (machine : Machine) : List Pending → Configuration
  | [] => halted (.aborted fault machine)
  | .branch _ :: pending => unwinding fault pending machine
  | .word _ :: pending => unwinding fault pending { machine with depth := machine.depth - 1 }
  | .loop .. :: pending =>
    unwinding fault pending { machine with scopes := machine.scopes.unenclose }

def step : Configuration → Configuration
  | running .nil pending machine => leave machine pending
  | running (.push value rest) pending machine => running rest pending (machine.push value)
  | running (.call name rest) pending machine => call name rest pending machine
  | running (.define name body rest) pending machine =>
    running rest pending (machine.define name body)
  | running (.declare name rest) pending machine => running rest pending (machine.declare name)
  | running (.ifThen consequence rest) pending machine =>
    branch consequence .nil rest pending machine
  | running (.ifElse consequence alternative rest) pending machine =>
    branch consequence alternative rest pending machine
  | running (.loop body rest) pending machine => loop body rest pending machine
  | turning body index limit rest pending machine =>
    if index = limit then
      running rest pending { machine with scopes := machine.scopes.unenclose }
    else
      running body (.loop body index limit rest :: pending)
        { machine with scopes := machine.scopes.set loopIndex index }
  | unwinding fault pending machine => giveUp fault machine pending
  | halted outcome => halted outcome

def resumed (rest : Program) (pending : List Pending) : Outcome Fault → Configuration
  | .finished machine => running rest pending machine
  | .aborted fault machine => unwinding fault pending machine

/-- Finitely many steps take the first configuration to the last. -/
def Leads (first last : Configuration) : Prop :=
  ∃ steps, step^[steps] first = last

private theorem Leads.refl (configuration : Configuration) : Leads configuration configuration :=
  ⟨0,rfl⟩

private theorem Leads.trans {first second third : Configuration} (h : Leads first second)
    (h' : Leads second third) : Leads first third := by
  obtain ⟨steps,rfl⟩ := h
  obtain ⟨more,rfl⟩ := h'
  exact ⟨more+steps,Function.iterate_add_apply step more steps first⟩

private theorem Leads.head {first last : Configuration} (h : Leads (step first) last) : Leads first last :=
  Leads.trans ⟨1,rfl⟩ h

end Configuration

private theorem distance_eq_zero_iff (start limit : Int64) : distance start limit = 0 ↔ start = limit := by
  unfold distance
  rw [← Int64.toBitVec_inj]
  simp only [← UInt64.toNat_toBitVec,Int64.toBitVec_toUInt64,Int64.toBitVec_sub]
  bv_omega

private theorem distance_succ {start limit : Int64} {count : Nat}
    (h : distance start limit = count + 1) : distance (start + 1) limit = count := by
  unfold distance at *
  simp only [← UInt64.toNat_toBitVec,Int64.toBitVec_toUInt64,Int64.toBitVec_sub,
    Int64.toBitVec_add] at *
  simp only [Int64.toBitVec_ofNat]
  bv_omega

section
open Machine.Configuration
variable {enter : Program → Machine → Outcome Fault} {body : Machine → Outcome Fault}
variable {levels : Nat}

/-- A body agrees with its steps wherever exactly `levels` further calls may be nested. -/
def Simulates (levels : Nat) (program : Program) (body : Machine → Outcome Fault) : Prop :=
  ∀ (pending : List Pending) (machine : Machine), machine.maxDepth - machine.depth = levels →
    Leads (running program pending machine) (resumed .nil pending (body machine))

private theorem Simulates.andThen {first : Configuration} {rest : Program} {pending : List Pending}
    {machine : Machine} {outcome : Outcome Fault} {next : Machine → Outcome Fault}
    (hr : Simulates levels rest next) (h : Leads first (resumed rest pending outcome))
    (hu : Unwound machine outcome.machine) (hl : machine.maxDepth - machine.depth = levels) :
    Leads first (resumed .nil pending (outcome.andThen next)) := by
  cases outcome with
  | finished after => exact h.trans (hr pending after (hu.levels.trans hl))
  | aborted fault after => exact h

def Enters (levels : Nat) (enter : Program → Machine → Outcome Fault) : Prop :=
  ∀ (word rest : Program) (pending : List Pending) (machine : Machine),
    machine.maxDepth - machine.depth = levels →
    Leads (Configuration.enter word rest pending machine)
      (resumed rest pending (enter word machine))

private theorem leads_call (he : Enters levels enter) (name : String) (rest : Program)
    (pending : List Pending) (machine : Machine) (hl : machine.maxDepth - machine.depth = levels) :
    Leads (Configuration.call name rest pending machine)
      (resumed rest pending (machine.call enter name)) := by
  rw [Configuration.call,call_eq_meaning]
  cases machine.meaning name with
  | word word => exact he word rest pending machine hl
  | primitive | binding | address | unknown => exact .refl _

private theorem leads_branch {onTrue onFalse : Program} {whenTrue whenFalse : Machine → Outcome Fault}
    (ht : Simulates levels onTrue whenTrue) (hf : Simulates levels onFalse whenFalse)
    (rest : Program) (pending : List Pending) (machine : Machine)
    (hl : machine.maxDepth - machine.depth = levels) :
    Leads (Configuration.branch onTrue onFalse rest pending machine)
      (resumed rest pending (machine.branch whenTrue whenFalse)) := by
  have left (outcome : Outcome Fault) : Leads (resumed .nil (.branch rest :: pending) outcome)
      (resumed rest pending outcome) := by
    cases outcome <;> exact Leads.head (.refl _)
  rw [Configuration.branch,branch]
  cases machine.stack with
  | nil => exact .refl _
  | cons flag below =>
    by_cases h : flag = 0
    · simp only [if_pos h]
      exact (hf _ { machine with stack := below } hl).trans (left _)
    · simp only [if_neg h]
      exact (ht _ { machine with stack := below } hl).trans (left _)

private theorem leads_iterate {program : Program} (hb : Simulates levels program body)
    (hu : ∀ machine, Unwound machine (body machine).machine) (count : Nat) (index limit : Int64)
    (hd : distance index limit = count) (rest : Program) (pending : List Pending)
    (machine : Machine) (hl : machine.maxDepth - machine.depth = levels) :
    Leads (turning program index limit rest pending machine)
      (resumed rest pending ((iterate body count index machine).mapMachine fun machine =>
        { machine with scopes := machine.scopes.unenclose })) := by
  -- The induction is on the turns that remain: the limit is reached because each turn brings the
  -- index closer to it, even when it starts above.
  induction count generalizing index machine with
  | zero =>
    have he := (distance_eq_zero_iff index limit).mp hd
    refine Leads.head ?_
    rw [step,if_pos he]
    exact .refl _
  | succ count ih =>
    have hne : index ≠ limit := by
      intro he
      rw [(distance_eq_zero_iff index limit).mpr he] at hd
      cases hd
    refine Leads.head ?_
    rw [step,if_neg hne,iterate]
    have hr := hb (.loop program index limit rest :: pending)
      { machine with scopes := machine.scopes.set loopIndex index } hl
    have hk := hu { machine with scopes := machine.scopes.set loopIndex index }
    refine hr.trans ?_
    cases ho : body { machine with scopes := machine.scopes.set loopIndex index } with
    | aborted fault after => exact Leads.head (.refl _)
    | finished after =>
      rw [ho] at hk
      exact Leads.head (ih (index+1) (distance_succ hd) after (hk.levels.trans hl))

private theorem leads_loop {program : Program} (hb : Simulates levels program body)
    (hu : ∀ machine, Unwound machine (body machine).machine) (rest : Program)
    (pending : List Pending) (machine : Machine) (hl : machine.maxDepth - machine.depth = levels) :
    Leads (Configuration.loop program rest pending machine)
      (resumed rest pending (machine.countedLoop body)) := by
  rw [Configuration.loop,countedLoop]
  rcases machine.stack with _ | ⟨limit,_ | ⟨start,below⟩⟩
  · exact .refl _
  · exact .refl _
  · exact leads_iterate hb hu _ start limit rfl rest pending _ hl

private theorem simulates_run (he : Enters levels enter)
    (hu : ∀ word machine, Unwound machine (enter word machine).machine) (program : Program) :
    Simulates levels program (run enter program) := by
  induction program with
  | nil => exact fun pending machine _ => .refl _
  | push value rest ih => exact fun pending machine hl => Leads.head (ih pending _ hl)
  | call name rest ih =>
    intro pending machine hl
    have hc := leads_call he name rest pending machine hl
    exact Leads.head (ih.andThen hc (unwound_call hu name machine) hl)
  | define name word rest _ ih => exact fun pending machine hl => Leads.head (ih pending _ hl)
  | declare name rest ih => exact fun pending machine hl => Leads.head (ih pending _ hl)
  | ifThen consequence rest ihc ih =>
    intro pending machine hl
    have hf : Simulates levels .nil .finished := fun pending machine _ => .refl _
    have hb := leads_branch ihc hf rest pending machine hl
    have hk := unwound_branch (unwound_run hu consequence) .finished machine
    exact Leads.head (ih.andThen hb hk hl)
  | ifElse consequence alternative rest ihc iha ih =>
    intro pending machine hl
    have hb := leads_branch ihc iha rest pending machine hl
    have hk := unwound_branch (unwound_run hu consequence) (unwound_run hu alternative) machine
    exact Leads.head (ih.andThen hb hk hl)
  | loop body rest ihb ih =>
    intro pending machine hl
    have hb := leads_loop ihb (unwound_run hu body) rest pending machine hl
    have hk := unwound_countedLoop (unwound_run hu body) machine
    exact Leads.head (ih.andThen hb hk hl)

private theorem simulates_runWithin (levels : Nat) (program : Program) :
    Simulates levels program (runWithin levels program) := by
  -- The induction is on the calls that may still be nested: a word is entered only if one is
  -- left, and then its body has one less.
  induction levels generalizing program with
  | zero =>
    refine simulates_run ?_ ?_ program
    · intro word rest pending machine hl
      rw [Configuration.enter,if_pos (by omega)]
      exact .refl _
    · intro word machine
      exact .refl machine
  | succ levels ih =>
    refine simulates_run ?_ ?_ program
    · intro word rest pending machine hl
      rw [Configuration.enter,if_neg (by omega)]
      have hw := ih word (.word rest :: pending) { machine with depth := machine.depth + 1 }
        (show machine.maxDepth - (machine.depth + 1) = levels by omega)
      refine hw.trans (Leads.head ?_)
      dsimp only
      cases runWithin levels word { machine with depth := machine.depth + 1 } <;> exact .refl _
    · intro word machine
      exact (unwound_runWithin levels word _).deeper

/-- The steps of a program that runs inside pending work come to its outcome. -/
theorem leads_evaluate (machine : Machine) (program : Program) (pending : List Pending) :
    Leads (running program pending machine) (resumed .nil pending (machine.evaluate program)) :=
  simulates_runWithin _ program pending machine rfl

theorem leads_halted (machine : Machine) (program : Program) :
    Leads (running program [] machine) (halted (machine.evaluate program)) := by
  refine (leads_evaluate machine program []).trans ?_
  cases machine.evaluate program <;> exact Leads.head (.refl _)

/-- A loop is left again from any moment at which it compares its index. -/
theorem turning_leads (program rest : Program) (index limit : Int64) (pending : List Pending)
    (machine : Machine) :
    ∃ outcome, Leads (turning program index limit rest pending machine)
      (resumed rest pending outcome) :=
  ⟨_,leads_iterate (simulates_runWithin _ program) (unwound_runWithin _ program) _ index limit rfl
    rest pending machine rfl⟩

end

/-- What every step keeps holds of the outcome, if it holds at the start. -/
theorem evaluate_of_invariant {invariant : Configuration → Prop}
    (hs : ∀ configuration, invariant configuration → invariant configuration.step)
    {machine : Machine} {program : Program} (hi : invariant (.running program [] machine)) :
    invariant (.halted (machine.evaluate program)) := by
  obtain ⟨steps,he⟩ := leads_halted machine program
  rw [← he]
  exact Function.Iterate.rec invariant hi hs steps

end NandStack.Machine
