import NandStack.Proofs.Machine.Pieces
import NandStack.Proofs.Machine.Reports
import NandStack.Proofs.Session.History

/-!
Reports of a session: a machine reports only what is so, whatever it has been asked for since its
creation, and what it has reported stays until it is drained. The one fault that aborts evaluations
is never reported, and the reported ones never abort any.
-/

namespace NandStack

/-- What a fault says can be so on a machine with a memory of this size. -/
def Fault.SoundFor (size : Nat) : Fault → Prop
  | stackUnderflow _ needed found => found < needed ∧ needed ≤ 2
  | addressOutOfRange address cells => cells = size ∧ (address.toInt < 0 ∨ size ≤ address.toInt)
  | returnStackUnderflow _ | unknownWord _ | outputFailed _ => True
  | nestingTooDeep _ => False

private theorem Fault.TrueOf.soundFor {machine : Machine} {fault : Fault} (h : fault.TrueOf machine) :
    fault.SoundFor machine.memory.size := by
  cases fault with
  | stackUnderflow word needed found => exact h.2
  | addressOutOfRange address cells =>
    obtain ⟨-,rfl,hr⟩ := h
    exact ⟨rfl,hr⟩
  | returnStackUnderflow | unknownWord | outputFailed => trivial
  | nestingTooDeep => exact h

namespace Machine

structure Audited (size : Nat) (machine : Machine) : Prop where
  size_eq : machine.memory.size = size
  sound : ∀ fault ∈ machine.reports, fault.SoundFor size

private theorem Audited.truthful {size : Nat} {before after : Machine} (h : Audited size before)
    (ht : Truthful before after) : Audited size after := by
  refine ⟨ht.size_eq.trans h.size_eq,?_⟩
  rcases ht.reports with hr | ⟨fault,hf,hr⟩
  · rw [hr]
    exact h.sound
  · intro other ho
    rw [hr] at ho
    rcases Array.mem_push.mp ho with ho | rfl
    · exact h.sound other ho
    · exact h.size_eq ▸ hf.soundFor

open Machine.Configuration (running halted step Leads)

private theorem Audited.iterate {size : Nat} (configuration : Configuration)
    (h : Audited size configuration.machine) (steps : Nat) :
    Audited size (step^[steps] configuration).machine :=
  Function.Iterate.rec (fun later : Configuration => Audited size later.machine) h
    (fun later hl => hl.truthful (Configuration.truthful_step later)) steps

private theorem Audited.evaluate {size : Nat} {machine : Machine} (h : Audited size machine)
    (program : Program) : Audited size (machine.evaluate program).machine := by
  obtain ⟨steps,he⟩ := leads_halted machine program
  have hs := Audited.iterate (running program [] machine) h steps
  rw [he] at hs
  exact hs

private theorem Audited.evaluateSource {size : Nat} {machine : Machine} (h : Audited size machine)
    (source : String) : Audited size (machine.evaluateSource source).machine :=
  evaluateSource_of_evaluate (motive := Audited size) h h.evaluate source

private theorem Audited.drainReports {size : Nat} {machine : Machine} (h : Audited size machine) :
    Audited size machine.drainReports :=
  ⟨h.size_eq,fun _ hm => absurd hm (Array.not_mem_empty _)⟩

private theorem Audited.serve {size : Nat} {machine : Machine} (h : Audited size machine)
    (request : Request) : Audited size (machine.serve request) := by
  cases request with
  | evaluate program => exact h.evaluate program
  | evaluateSource source => exact h.evaluateSource source
  | runSource source => exact (h.evaluateSource source).drainReports
  | takeReports => exact h.drainReports

private theorem Audited.requests {size : Nat} {machine : Machine} (h : Audited size machine)
    (requests : List Request) : Audited size (requests.foldl Machine.serve machine) := by
  induction requests generalizing machine with
  | nil => exact h
  | cons request requests ih => exact ih (h.serve request)

private theorem audited_of_create {grants : Nat → Bool} {sizes : MachineSizes} {sink : Sink}
    {machine : Machine} (h : create grants sizes sink = .ok machine) :
    Audited (sizes.cells + sizes.reserved) machine := by
  obtain ⟨memory,hm,dictionary,addresses,nextAddress,rfl⟩ := fresh_of_create h
  exact ⟨Memory.size_of_allocate? hm,fun _ hf => absurd hf (Array.not_mem_empty _)⟩

def Request.drains : Request → Bool
  | evaluate _ | evaluateSource _ => false
  | runSource _ | takeReports => true

private theorem grown_evaluateSource (machine : Machine) (source : String) :
    Grown machine (machine.evaluateSource source).machine :=
  evaluateSource_of_evaluate (motive := Grown machine) (.refl machine) (grown_evaluate machine) source

private theorem grown_requests (machine : Machine) {requests : List Request}
    (h : ∀ request ∈ requests, request.drains = false) :
    Grown machine (requests.foldl serve machine) := by
  induction requests generalizing machine with
  | nil => exact .refl machine
  | cons request requests ih =>
    have hr := ih (machine.serve request) fun other ho => h other (List.mem_cons_of_mem _ ho)
    have hd := h request List.mem_cons_self
    cases request with
    | evaluate program => exact (grown_evaluate machine program).trans hr
    | evaluateSource source => exact (grown_evaluateSource machine source).trans hr
    | runSource | takeReports => cases hd

private theorem not_named_of_unknown {machine : Machine} {name : String}
    (h : machine.meaning name = .unknown) :
    ¬ machine.isDefined name ∧ ¬ machine.variables.contains name := by
  unfold meaning at h
  split at h
  · cases h
  · cases h
  · cases h
  · cases h
  · rename_i hp _ hd hv
    simp [isDefined,NameTable.contains,hp,hd,hv]

private theorem unknown_before (configuration : Configuration) {steps : Nat} {name : String}
    (h : (step^[steps] configuration).machine.meaning name = .unknown) :
    Primitive.ofName? name = none ∧ configuration.machine.dictionary.find? name = none ∧
      configuration.machine.variables.find? name = none := by
  obtain ⟨hd,hv⟩ := not_named_of_unknown h
  have hb := mt (fun hn => Configuration.isDefined_iterate hn steps) hd
  have ha := mt (fun hn => Configuration.contains_variables_iterate hn steps) hv
  simp only [isDefined,NameTable.contains,Bool.or_eq_true,not_or,Option.not_isSome_iff_eq_none]
    at hb ha
  exact ⟨hb.1,hb.2,ha⟩

/-- Fatal and other faults never mix, and every report is truthful. Of a machine that has been created
and then asked for anything, evaluations are aborted only by calls nested too deep, and those of texts
also by what is wrong with a text. Until they are drained, reports only gain others behind them. At
every moment of an evaluation the memory has the size that it was created with, all reports held are
sound for it, and the next step reports at most one fault, which is so at that moment; a name that is
reported as unknown is that of no primitive and has had neither a word nor an address when the
evaluation began. -/
theorem reports_are_truthful {grants : Nat → Bool} {sizes : MachineSizes} {sink : Sink}
    {machine : Machine} (h : create grants sizes sink = .ok machine) (requests : List Request) :
    let now := requests.foldl serve machine
    let size := sizes.cells + sizes.reserved
    (∀ program, (now.evaluate program).error? = none ∨
      (now.evaluate program).error? = some (.nestingTooDeep sizes.maxDepth)) ∧
    (∀ source, (now.evaluateSource source).error? = none ∨
      (∃ error, Program.ofSource source = .error error ∧
        (now.evaluateSource source).error? = some (.parse error)) ∨
      (now.evaluateSource source).error? = some (.runtime (.nestingTooDeep sizes.maxDepth))) ∧
    (∀ more : List Request, (∀ request ∈ more, request.drains = false) →
      ∃ added, (more.foldl serve now).reports = now.reports ++ added) ∧
    ∀ program, Leads (running program [] now) (halted (now.evaluate program)) ∧
      ∀ steps, let moment := step^[steps] (running program [] now)
        moment.machine.memory.size = size ∧
        (∀ fault ∈ moment.machine.reports, fault.SoundFor size) ∧
        (moment.step.machine.reports = moment.machine.reports ∨
          ∃ fault : Fault, fault.TrueOf moment.machine ∧
            moment.step.machine.reports = moment.machine.reports.push fault ∧
            ∀ name, fault = .unknownWord name → Primitive.ofName? name = none ∧
              now.dictionary.find? name = none ∧ now.variables.find? name = none) := by
  intro now size
  have hl : now.maxDepth = sizes.maxDepth := by
    obtain ⟨memory,-,dictionary,addresses,nextAddress,rfl⟩ := fresh_of_create h
    exact (unwound_foldl_serve _ requests).maxDepth
  have he : ∀ program, (now.evaluate program).error? = none ∨
      (now.evaluate program).error? = some (.nestingTooDeep sizes.maxDepth) := by
    intro program
    rw [← hl]
    exact (Configuration.balanced_evaluate now program).2
  have ha : Audited size now := (audited_of_create h).requests requests
  refine ⟨he,?_,fun more hm => (grown_requests now hm).reports,?_⟩
  · intro source
    rcases now.error?_evaluateSource source with hp | ⟨program,-,hp⟩
    · exact .inr (.inl hp)
    · rcases he program with hn | hd
      · rw [hn] at hp
        exact .inl hp
      · rw [hd] at hp
        exact .inr (.inr hp)
  · intro program
    refine ⟨leads_halted now program,?_⟩
    intro steps moment
    have hm : Audited size moment.machine := .iterate (running program [] now) ha steps
    refine ⟨hm.size_eq,hm.sound,?_⟩
    rcases (Configuration.truthful_step moment).reports with hr | ⟨fault,ht,hr⟩
    · exact .inl hr
    · refine .inr ⟨fault,ht,hr,?_⟩
      rintro name rfl
      exact unknown_before (running program [] now) ht

/-- One cell, an underflow in an earlier evaluation, then a negative address and an empty return
stack. -/
theorem reports_are_truthful_out_of_range :
    let program := Program.push (-1) (.call "@" (.call "r>" .nil))
    let earlier := Request.evaluate (.call "drop" .nil)
    let later := Request.evaluate program
    ∃ machine, create (fun _ => true) ⟨1, 0, 4⟩ .unlimited = .ok machine ∧
      (∃ added, (machine.serve earlier |>.serve later).reports = (machine.serve earlier).reports ++ added) ∧
      let moment := step^[3] (running program [] (machine.serve earlier))
      moment.machine.reports = #[.stackUnderflow "drop" 1 0, .addressOutOfRange (-1) 1,
          .returnStackUnderflow "r>"] ∧
        ∀ fault ∈ moment.machine.reports, fault.SoundFor 1 := by
  intro program earlier later
  obtain ⟨machine,hc,hf⟩ := fresh_create (fun _ => true) ⟨1, 0, 4⟩ .unlimited rfl
  obtain ⟨-,-,hg,hm⟩ := reports_are_truthful hc [earlier]
  have hd : ∀ request ∈ [later], request.drains = false := by
    intro request hr
    cases List.mem_singleton.mp hr
    rfl
  refine ⟨machine,hc,hg [later] hd,?_,((hm program).2 3).2.1⟩
  obtain ⟨dictionary,addresses,nextAddress,rfl⟩ := hf
  rfl

end Machine

end NandStack
