import NandStack.Proofs.Machine.Peripherals
import NandStack.Proofs.Session.History

/-!
Observers: what is printed and reported is for others to read, and no computation depends on it. A
sink that refuses lines adds reports about the sink and changes nothing else, and reports may be
drained at any time.
-/

namespace NandStack

def Fault.isRefusal : Fault → Bool
  | outputFailed _ => true
  | stackUnderflow .. | returnStackUnderflow _ | unknownWord _ | addressOutOfRange ..
  | nestingTooDeep _ => false

def Fault.computed (reports : Array Fault) : Array Fault :=
  reports.filter fun fault => !fault.isRefusal

/-- Some reports have been added to earlier ones, and these are left when those about the sink are
removed. -/
def Adds (earlier counted reports : Array Fault) : Prop :=
  ∃ added, reports = earlier ++ added ∧ Fault.computed added = counted

namespace Adds
variable {earlier counted reports : Array Fault}

private theorem none (reports : Array Fault) : Adds reports #[] reports :=
  ⟨#[],Array.append_empty.symm,rfl⟩

private theorem push (h : Adds earlier counted reports) (fault : Fault) :
    Adds earlier (counted ++ Fault.computed #[fault]) (reports.push fault) := by
  obtain ⟨added,rfl,rfl⟩ := h
  refine ⟨added.push fault,Array.push_append,?_⟩
  rw [Array.push_eq_append]
  exact Array.filter_append Array.size_append

private theorem offer {held : Peripherals} (h : Adds earlier counted held.reports) (line : String) :
    Adds earlier counted (held.offer line).reports := by
  unfold Peripherals.offer
  split
  · exact h
  · rename_i sink reason _
    have hp := h.push (.outputFailed reason)
    have hn : Fault.computed #[.outputFailed reason] = #[] := rfl
    rwa [hn,Array.append_empty] at hp

end Adds

namespace Machine

/-- The machines are equal but for their sinks and reports. -/
def SameButOutput (first second : Machine) : Prop :=
  ∃ sink reports, second = { first with sink := sink, reports := reports }

structure SameComputed (origin start : Machine) (held other : Peripherals) : Prop where
  memory_eq : other.memory = held.memory
  reports : ∃ counted, Adds origin.reports counted held.reports ∧
    Adds start.reports counted other.reports

variable {origin start first second : Machine}

private theorem SameButOutput.alikeUpTo (h : SameButOutput first second) :
    AlikeUpTo (SameComputed first second) first second := by
  obtain ⟨sink,reports,rfl⟩ := h
  exact ⟨⟨first.memory,sink,reports⟩,rfl,rfl,#[],.none _,.none _⟩

private theorem AlikeUpTo.sameButOutput (h : AlikeUpTo (SameComputed origin start) first second) :
    SameButOutput first second := by
  obtain ⟨held,rfl,hr⟩ := h
  refine ⟨held.sink,held.reports,?_⟩
  rw [withPeripherals,hr.memory_eq]
  rfl

private theorem compatible_sameComputed (origin start : Machine) :
    Compatible (SameComputed origin start) fun _ => False := by
  apply compatible_of_memory_eq
  · intro held other h
    exact h.memory_eq
  · intro held other memory h
    exact ⟨rfl,h.reports⟩
  · rintro held other fault ⟨hm,counted,ha,ho⟩
    exact ⟨hm,_,ha.push fault,ho.push fault⟩
  · rintro held other line ⟨hm,counted,ha,ho⟩
    refine ⟨?_,counted,ha.offer line,ho.offer line⟩
    have memory_offer (held : Peripherals) : (held.offer line).memory = held.memory := by
      unfold Peripherals.offer
      split <;> rfl
    rw [memory_offer,memory_offer,hm]

/-- Two evaluations of one program on machines that differ in their sinks and reports. -/
theorem sameButOutput_evaluate (h : SameButOutput first second) (program : Program) :
    AlikeUpTo (SameComputed first second) (first.evaluate program).machine
        (second.evaluate program).machine ∧
      (second.evaluate program).error? = (first.evaluate program).error? :=
  ((simulation_alikeUpTo (compatible_sameComputed first second)).evaluate id id h.alikeUpTo
    program).resolve_right id

private theorem sameButOutput_evaluateSource (h : SameButOutput first second) (source : String) :
    SameButOutput (first.evaluateSource source).machine (second.evaluateSource source).machine := by
  unfold evaluateSource
  split
  · rw [Outcome.machine_mapError,Outcome.machine_mapError]
    exact (sameButOutput_evaluate h _).1.sameButOutput
  · exact h

/-- What is left of a request if nobody drains the reports. -/
def Request.undrained : Request → Option Request
  | evaluate program => some (evaluate program)
  | evaluateSource source => some (evaluateSource source)
  | runSource source => some (evaluateSource source)
  | takeReports => none

theorem sameButOutput_serve (h : SameButOutput first second) (request : Request) :
    SameButOutput (first.serve request) (request.undrained.toList.foldl serve second) := by
  cases request with
  | evaluate program => exact (sameButOutput_evaluate h program).1.sameButOutput
  | evaluateSource source => exact sameButOutput_evaluateSource h source
  | runSource source =>
    obtain ⟨sink,reports,he⟩ := sameButOutput_evaluateSource h source
    exact ⟨sink,reports,he⟩
  | takeReports =>
    obtain ⟨sink,reports,rfl⟩ := h
    exact ⟨sink,reports,rfl⟩

private theorem sameButOutput_requests (h : SameButOutput first second) (requests : List Request) :
    SameButOutput (requests.foldl serve first)
      ((requests.filterMap Request.undrained).foldl serve second) := by
  induction requests generalizing first second with
  | nil => exact h
  | cons request requests ih =>
    have hs := ih (sameButOutput_serve h request)
    rw [← List.foldl_append] at hs
    cases hu : request.undrained with
    | none => simpa [hu] using hs
    | some left => simpa [hu] using hs

/-- Output and reports never influence a computation. Evaluations of any program on machines that
differ only in their sinks, whichever lines these refuse, and in the reports that they hold end alike,
with machines that again differ only so, and both have added the same reports but for those about the
sinks. So it also makes no difference to any sequence of requests whether the reports are drained. -/
theorem output_never_interferes (h : SameButOutput first second) :
    (∀ program,
      SameButOutput (first.evaluate program).machine (second.evaluate program).machine ∧
      (second.evaluate program).error? = (first.evaluate program).error? ∧
      ∃ added more, (first.evaluate program).machine.reports = first.reports ++ added ∧
        (second.evaluate program).machine.reports = second.reports ++ more ∧
        Fault.computed more = Fault.computed added) ∧
    ∀ requests : List Request, SameButOutput (requests.foldl serve first)
      ((requests.filterMap Request.undrained).foldl serve second) := by
  refine ⟨?_,sameButOutput_requests h⟩
  intro program
  obtain ⟨hm,he⟩ := sameButOutput_evaluate h program
  refine ⟨hm.sameButOutput,he,?_⟩
  obtain ⟨held,hs,-,counted,⟨added,ha,rfl⟩,more,hr,hc⟩ := hm
  rw [hs]
  exact ⟨added,more,ha,hr,hc⟩

/-- Two turns of a loop print a line each, of which one sink refuses the second, and report an
underflow each. Draining that sink's machine afterwards makes no difference to a sum. -/
theorem output_never_interferes_refused :
    let program := Program.push 0 (.push 2 (.loop (.call "i" (.call "." (.call "drop" .nil))) .nil))
    let sum := Program.push 1 (.push 2 (.call "+" .nil))
    let underflow := Fault.stackUnderflow "drop" 1 0
    let first := blank ⟨#[]⟩ (.limited 1) 1
    let second := { first with sink := .unlimited, reports := #[.unknownWord "x"] }
    SameButOutput first second ∧
      SameButOutput (first.evaluate program).machine (second.evaluate program).machine ∧
      (first.evaluate program).machine.reports = #[underflow, .outputFailed "sink full", underflow] ∧
      (second.evaluate program).machine.reports = #[.unknownWord "x", underflow, underflow] ∧
      (second.evaluate program).machine.sink.written = "0\n1\n" ∧
      SameButOutput ([.evaluate program, .takeReports, .evaluate sum].foldl serve first)
        ([.evaluate program, .evaluate sum].foldl serve second) := by
  intro program sum underflow first second
  have hs : SameButOutput first second := ⟨_,_,rfl⟩
  obtain ⟨he,hr⟩ := output_never_interferes hs
  refine ⟨hs,(he program).1,?_,?_,?_,hr [.evaluate program, .takeReports, .evaluate sum]⟩
  · decide +kernel
  · decide +kernel
  · decide +kernel

end Machine

end NandStack
