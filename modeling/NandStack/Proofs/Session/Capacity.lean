import NandStack.Proofs.Machine.Peripherals
import NandStack.Proofs.Machine.Pieces
import NandStack.Proofs.Memory
import NandStack.Proofs.Session.Creation

/-!
Capacity: programs that stay inside a memory run alike in every larger one, whose further cells stay
zero. The first address outside the smaller memory is reported and is the first difference.
-/

namespace NandStack

def Fault.isOutOfRange : Fault → Bool
  | addressOutOfRange .. => true
  | stackUnderflow .. | returnStackUnderflow _ | unknownWord _ | outputFailed _
  | nestingTooDeep _ => false

namespace Machine

def padded (extra : Nat) (machine : Machine) : Machine :=
  { machine with memory := machine.memory.padded extra }

def Exceeded (machine : Machine) : Prop :=
  ∃ fault ∈ machine.reports, fault.isOutOfRange

private theorem Exceeded.grown {before after : Machine} (h : Exceeded before) (hg : Grown before after) :
    Exceeded after := by
  obtain ⟨fault,hm,hf⟩ := h
  obtain ⟨added,ha⟩ := hg.reports
  exact ⟨fault,ha ▸ Array.mem_append_left added hm,hf⟩

private theorem exceeded_report (machine : Machine) (address : Int64) (size : Nat) :
    Exceeded (machine.report (.addressOutOfRange address size)) :=
  ⟨_,Array.mem_push_self,rfl⟩

private theorem compatible_padded (extra : Nat) :
    Compatible (Changed fun held => { held with memory := held.memory.padded extra }) Exceeded where
  report := by
    rintro held _ fault rfl
    rfl
  offer := by
    rintro held _ line rfl
    simp only [Changed,Peripherals.offer]
    rcases held.sink.writeLine line with ⟨sink,_ | reason⟩ <;> rfl
  store := by
    rintro first _ ⟨_,rfl,rfl⟩
    rcases first with ⟨_,_,_,_,_ | ⟨address,_ | ⟨value,rest⟩⟩,_,memory,_,_,_,_⟩
    · exact .inl ⟨_,rfl,rfl⟩
    · exact .inl ⟨_,rfl,rfl⟩
    · cases hc : memory.cell? address with
      | none =>
        refine .inr ?_
        simp only [Primitive.runStore,hc]
        exact exceeded_report _ address memory.size
      | some cell =>
        refine .inl ?_
        simp only [Primitive.runStore,withPeripherals,peripherals,hc,Memory.cell?_padded extra hc,
          Memory.store_padded]
        exact ⟨_,rfl,rfl⟩
  fetch := by
    rintro first _ ⟨_,rfl,rfl⟩
    rcases first with ⟨_,_,_,_,_ | ⟨address,rest⟩,_,memory,_,_,_,_⟩
    · exact .inl ⟨_,rfl,rfl⟩
    · cases hc : memory.cell? address with
      | none =>
        refine .inr ?_
        simp only [Primitive.runFetch,hc]
        exact exceeded_report _ address memory.size
      | some cell =>
        refine .inl ?_
        simp only [Primitive.runFetch,withPeripherals,peripherals,hc,Memory.cell?_padded extra hc,
          Memory.load_padded]
        exact ⟨_,rfl,rfl⟩

/-- One evaluation that reports no address outside. -/
theorem evaluate_padded (extra : Nat) (machine : Machine) (program : Program)
    (h : ¬ Exceeded (machine.evaluate program).machine) :
    (machine.padded extra).evaluate program =
      (machine.evaluate program).mapMachine (padded extra) :=
  evaluate_mapPeripherals (compatible_padded extra) (fun hx => hx.grown (Configuration.grown_step _)) h

/-- The outcomes of some programs that are evaluated in turn, aborted ones included. -/
def outcomes (machine : Machine) : List Program → List (Outcome Fault)
  | [] => []
  | program :: rest =>
    machine.evaluate program :: outcomes (machine.evaluate program).machine rest

private theorem outcomes_padded (extra : Nat) (machine : Machine) (programs : List Program)
    (h : ∀ outcome ∈ machine.outcomes programs, ¬ Exceeded outcome.machine) :
    (machine.padded extra).outcomes programs =
      (machine.outcomes programs).map (Outcome.mapMachine (padded extra)) := by
  induction programs generalizing machine with
  | nil => rfl
  | cons program rest ih =>
    have he := evaluate_padded extra machine program (h _ List.mem_cons_self)
    have hr := ih (machine.evaluate program).machine
      fun outcome ho => h outcome (List.mem_cons_of_mem _ ho)
    rw [outcomes,outcomes,List.map_cons,he,Outcome.machine_mapMachine,hr]

theorem evaluateSource_padded (extra : Nat) (machine : Machine) (source : String)
    (h : ¬ Exceeded (machine.evaluateSource source).machine) :
    (machine.padded extra).evaluateSource source =
      (machine.evaluateSource source).mapMachine (padded extra) := by
  apply evaluateSource_mapMachine
  intro program hp
  rw [evaluateSource_of_ok _ hp,Outcome.machine_mapError] at h
  exact evaluate_padded extra machine program h

private theorem padded_of_create {grants plenty : Nat → Bool} {small large : MachineSizes} {sink : Sink}
    {first second : Machine} (hd : large.maxDepth = small.maxDepth)
    (hn : small.cells + small.reserved ≤ large.cells + large.reserved)
    (hf : create grants small sink = .ok first) (hs : create plenty large sink = .ok second) :
    second = first.padded (large.cells + large.reserved - (small.cells + small.reserved)) := by
  have hr : ¬ Exceeded first := by
    obtain ⟨memory,-,dictionary,addresses,nextAddress,rfl⟩ := fresh_of_create hf
    rintro ⟨fault,hm,-⟩
    exact Array.not_mem_empty _ hm
  obtain ⟨memory,hm,he⟩ := createWith_eq_ok hf
  obtain ⟨big,hb,hg⟩ := createWith_eq_ok hs
  have hp := evaluateSource_padded (large.cells + large.reserved - (small.cells + small.reserved))
    (blank memory sink small.maxDepth) Vocabulary.source (by rwa [he])
  rw [Memory.padded_of_allocate? hn hm hb,hd] at hg
  rw [he] at hp
  exact Outcome.finished.inj (hg.symm.trans hp)

/-- More memory never changes a program that fits. Of two machines created with the same depth limit
and sink the second has at least as much memory. Programs that are evaluated in turn have the same
outcomes on both, with the same stacks, tables, reports and output, if the first machine never reports
an address outside; its memory is at all times the beginning of the other one, whose further cells are
zero. -/
theorem more_memory_changes_nothing {grants plenty : Nat → Bool} {small large : MachineSizes}
    {sink : Sink} {first second : Machine} (hd : large.maxDepth = small.maxDepth)
    (hn : small.cells + small.reserved ≤ large.cells + large.reserved)
    (hf : create grants small sink = .ok first) (hs : create plenty large sink = .ok second)
    (programs : List Program)
    (hr : ∀ outcome ∈ first.outcomes programs, ∀ fault ∈ outcome.machine.reports,
      fault.isOutOfRange = false) :
    let extra := large.cells + large.reserved - (small.cells + small.reserved)
    let pad (machine : Machine) : Machine :=
      { machine with memory := ⟨machine.memory.cells ++ Array.replicate extra 0⟩ }
    second = pad first ∧
      second.outcomes programs = (first.outcomes programs).map (Outcome.mapMachine pad) := by
  intro extra pad
  have hp : second = first.padded extra := padded_of_create hd hn hf hs
  refine ⟨hp,?_⟩
  rw [hp]
  apply outcomes_padded extra first programs
  rintro outcome ho ⟨fault,hm,hx⟩
  rw [hr outcome ho fault hm] at hx
  cases hx

/-- The single cell of the smaller memory is written and read again, where the larger memory has two
more. A variable gets an address beyond the smaller memory, and an underflow is reported by both. -/
theorem more_memory_changes_nothing_beyond :
    let programs := [Program.push 7 (.push 0 (.call "!" (.declare "x" .nil))),
      .call "drop" (.push 0 (.call "@" .nil))]
    ∃ first second, create (fun _ => true) ⟨1, 0, 2⟩ .unlimited = .ok first ∧
      create (fun _ => true) ⟨2, 1, 2⟩ .unlimited = .ok second ∧
      (∀ outcome ∈ first.outcomes programs, ∀ fault ∈ outcome.machine.reports,
        fault.isOutOfRange = false) ∧
      (second.outcomes programs).map (fun outcome => outcome.machine.memory.cells) =
        [#[7, 0, 0], #[7, 0, 0]] ∧
      (second.outcomes programs).map (fun outcome => outcome.machine.reports) =
        [#[], #[.stackUnderflow "drop" 1 0]] ∧
      (second.outcomes programs).map (fun outcome => outcome.machine.stack) = [[], [7]] := by
  intro programs
  obtain ⟨first,hf,hb⟩ := fresh_create (fun _ => true) ⟨1, 0, 2⟩ .unlimited rfl
  obtain ⟨second,hs,-⟩ := fresh_create (fun _ => true) ⟨2, 1, 2⟩ .unlimited rfl
  have hr : ∀ outcome ∈ first.outcomes programs, ∀ fault ∈ outcome.machine.reports,
      fault.isOutOfRange = false := by
    obtain ⟨dictionary,addresses,nextAddress,rfl⟩ := hb
    intro outcome ho
    rcases List.mem_cons.mp ho with rfl | ho
    · intro fault hm
      exact absurd hm (Array.not_mem_empty _)
    · cases List.mem_singleton.mp ho
      intro fault hm
      cases Array.mem_singleton.mp hm
      rfl
  obtain ⟨-,he⟩ := more_memory_changes_nothing (by rfl) (by decide) hf hs programs hr
  refine ⟨first,second,hf,hs,hr,?_⟩
  obtain ⟨dictionary,addresses,nextAddress,rfl⟩ := hb
  rw [he]
  exact ⟨rfl,rfl,rfl⟩

end Machine

end NandStack
