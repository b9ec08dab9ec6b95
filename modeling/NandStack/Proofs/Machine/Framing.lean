import NandStack.Proofs.Machine.Growth
import NandStack.Proofs.Machine.Lockstep

/-!
Framing: values that lie below everything a program works on stay where they are and change
nothing, unless the program reaches for them. It reaches for them exactly where it would report
an underflow without them.
-/

namespace NandStack

def Fault.isUnderflow : Fault → Bool
  | stackUnderflow .. => true
  | returnStackUnderflow _ => true
  | unknownWord _ | addressOutOfRange .. | outputFailed _ | nestingTooDeep _ => false

namespace Machine

/-- The machine with more values below its data stack and below its return stack. -/
def framed (below under : List Int64) (machine : Machine) : Machine :=
  { machine with
    stack := machine.stack ++ below
    returnStack := machine.returnStack ++ under }

section
variable (below under : List Int64)

private theorem combine_framed (word : Primitive) (operation : Int64 → Int64 → Int64) (machine : Machine) :
    word.combine operation (machine.framed below under) =
        (word.combine operation machine).framed below under ∨
      ∃ fault : Fault, fault.isUnderflow ∧ word.combine operation machine = machine.report fault := by
  rcases machine with ⟨_,_,_,_,_ | ⟨top,_ | ⟨second,rest⟩⟩,_,_,_,_,_,_⟩
  · exact .inr ⟨_,rfl,rfl⟩
  · exact .inr ⟨_,rfl,rfl⟩
  · exact .inl rfl

private theorem print_framed (machine : Machine) :
    Primitive.runPrint (machine.framed below under) = (Primitive.runPrint machine).framed below under ∨
      ∃ fault : Fault, fault.isUnderflow ∧ Primitive.runPrint machine = machine.report fault := by
  rcases machine with ⟨_,_,_,_,_ | ⟨value,rest⟩,_,_,sink,_,_,_⟩
  · exact .inr ⟨_,rfl,rfl⟩
  · refine .inl ?_
    simp only [Primitive.runPrint,Sink.writeLine,framed,List.cons_append]
    cases sink.refusal sink.offered <;> rfl

/-- A primitive either works above the added values or finds too few values without them. -/
theorem primitive_framed (primitive : Primitive) (machine : Machine) :
    primitive.run (machine.framed below under) = (primitive.run machine).framed below under ∨
      ∃ fault : Fault, fault.isUnderflow ∧ primitive.run machine = machine.report fault := by
  cases primitive with
  | print => exact print_framed below under machine
  | add | nand => exact combine_framed below under _ _ machine
  | drop | toReturn | isNegative =>
    rcases machine with ⟨_,_,_,_,_ | ⟨value,rest⟩,_,_,_,_,_,_⟩
    · exact .inr ⟨_,rfl,rfl⟩
    · exact .inl rfl
  | fromReturn =>
    rcases machine with ⟨_,_,_,_,_,_ | ⟨value,rest⟩,_,_,_,_,_⟩
    · exact .inr ⟨_,rfl,rfl⟩
    · exact .inl rfl
  | store =>
    rcases machine with ⟨_,_,_,_,_ | ⟨address,_ | ⟨value,rest⟩⟩,_,memory,_,_,_,_⟩
    · exact .inr ⟨_,rfl,rfl⟩
    · exact .inr ⟨_,rfl,rfl⟩
    · refine .inl ?_
      simp only [Primitive.run,Primitive.runStore,framed,List.cons_append]
      cases memory.cell? address <;> rfl
  | fetch =>
    rcases machine with ⟨_,_,_,_,_ | ⟨address,rest⟩,_,memory,_,_,_,_⟩
    · exact .inr ⟨_,rfl,rfl⟩
    · refine .inl ?_
      simp only [Primitive.run,Primitive.runFetch,framed,List.cons_append]
      cases memory.cell? address <;> rfl

end

def Underflowed (origin machine : Machine) : Prop :=
  ∃ added, machine.reports = origin.reports ++ added ∧ ∃ fault ∈ added, fault.isUnderflow

private theorem Underflowed.grown {origin before after : Machine} (h : Underflowed origin before)
    (hg : Grown before after) : Underflowed origin after := by
  obtain ⟨added,hr,fault,hm,hf⟩ := h
  obtain ⟨later,hl⟩ := hg.reports
  refine ⟨added ++ later,?_,fault,Array.mem_append_left later hm,hf⟩
  rw [hl,hr,Array.append_assoc]

private theorem underflowed_report {origin machine : Machine} (hg : Grown origin machine) {fault : Fault}
    (hf : fault.isUnderflow) : Underflowed origin (machine.report fault) := by
  obtain ⟨added,hr⟩ := hg.reports
  refine ⟨added.push fault,?_,fault,Array.mem_push_self,hf⟩
  rw [report,hr,Array.append_push]

open Machine.Configuration (Alongside Simulation)

/-- The second machine is the first one with the added values; the first one comes from `origin`. -/
def FramedFrom (origin : Machine) (below under : List Int64) (first second : Machine) : Prop :=
  Grown origin first ∧ second = first.framed below under

private theorem simulation_framed (origin : Machine) (below under : List Int64) :
    Simulation (FramedFrom origin below under)
      fun first _ => Underflowed origin first.machine where
  scopes_eq := by
    rintro first _ ⟨-,rfl⟩
    rfl
  depth_eq := by
    rintro first _ ⟨-,rfl⟩
    rfl
  withScopes := by
    rintro first _ scopes ⟨hg,rfl⟩
    exact ⟨hg.trans (.of_eq rfl rfl),rfl⟩
  withDepth := by
    rintro first _ depth ⟨hg,rfl⟩
    exact ⟨hg.trans (.of_eq rfl rfl),rfl⟩
  push := by
    rintro first _ value ⟨hg,rfl⟩
    exact ⟨hg.trans (.of_eq rfl rfl),rfl⟩
  define := by
    rintro first _ name body ⟨hg,rfl⟩
    exact ⟨hg.trans (.of_eq rfl rfl),rfl⟩
  declare := by
    rintro first _ name ⟨hg,rfl⟩
    exact ⟨hg.trans (.of_eq rfl rfl),rfl⟩
  call := by
    rintro first _ name rest pending ⟨hg,rfl⟩
    have hm : (first.framed below under).meaning name = first.meaning name := rfl
    simp only [Configuration.call,hm]
    cases first.meaning name with
    | primitive primitive =>
      rcases primitive_framed below under primitive first with he | ⟨fault,hf,he⟩
      · exact .inl (.running rest pending ⟨hg.trans (grown_primitive primitive first),he⟩)
      · refine .inr ?_
        change Underflowed origin (primitive.run first)
        rw [he]
        exact underflowed_report hg hf
    | word word =>
      refine .inl ?_
      simp only [Configuration.enter]
      change Alongside _ _ (if first.depth ≥ first.maxDepth then _ else _)
      split
      · exact .unwinding _ pending ⟨hg,rfl⟩
      · exact .running word _ ⟨hg.trans (.of_eq rfl rfl),rfl⟩
    | unknown => exact .inl (.running rest pending ⟨hg.trans (grown_report first _),rfl⟩)
    | binding | address => exact .inl (.running rest pending ⟨hg.trans (.of_eq rfl rfl),rfl⟩)
  branch := by
    rintro first _ onTrue onFalse rest pending ⟨hg,rfl⟩
    rcases first with ⟨_,_,_,_,_ | ⟨flag,stack⟩,_,_,_,_,_,_⟩
    · exact .inr (underflowed_report hg rfl)
    · exact .inl (.running _ _ ⟨hg.trans (.of_eq rfl rfl),rfl⟩)
  loop := by
    rintro first _ body rest pending ⟨hg,rfl⟩
    rcases first with ⟨_,_,_,_,_ | ⟨limit,_ | ⟨start,stack⟩⟩,_,_,_,_,_,_⟩
    · exact .inr (underflowed_report hg rfl)
    · exact .inr (underflowed_report hg rfl)
    · exact .inl (.turning body start limit rest pending ⟨hg.trans (.of_eq rfl rfl),rfl⟩)

/-- Frame law: values below both stacks come through an evaluation untouched and change nothing
else of its outcome, if none of the reports that it adds is about an underflow. -/
theorem evaluate_framed (machine : Machine) (program : Program) (below under : List Int64)
    {added : Array Fault}
    (ha : (machine.evaluate program).machine.reports = machine.reports ++ added)
    (hu : ∀ fault ∈ added, fault.isUnderflow = false) :
    (machine.framed below under).evaluate program =
      (machine.evaluate program).mapMachine (framed below under) := by
  have hl := (simulation_framed machine below under).evaluate id
    (fun hf => hf.grown (Configuration.grown_step _)) ⟨.refl machine,rfl⟩ program
  rcases hl with ⟨⟨-,hm⟩,he⟩ | ⟨others,hr,fault,hm,hf⟩
  · refine Outcome.ext ?_ ?_
    · rw [hm,Outcome.machine_mapMachine]
    · rw [he,Outcome.error?_mapMachine]
  · have ho : others = added := (Array.append_right_inj _).mp (hr.symm.trans ha)
    rw [hu fault (ho ▸ hm)] at hf
    cases hf

/-- An evaluation that empties both stacks down to its own values, reports an address and is then
aborted in a word that calls itself. -/
theorem evaluate_framed_aborted :
    let program := Program.call ">r" (.push 9 (.call "@" (.call "r>" (.call "f" .nil))))
    let machine : Machine := { (blank ⟨#[]⟩ .unlimited 2).define "f" (.call "f" .nil) with stack := [5] }
    let outcome := (machine.framed [7] [8]).evaluate program
    (machine.evaluate program).machine.reports = machine.reports ++ #[.addressOutOfRange 9 0] ∧
      outcome = (machine.evaluate program).mapMachine (framed [7] [8]) ∧
      outcome.error? = some (.nestingTooDeep 2) ∧ outcome.machine.stack = [5, 9, 7] ∧
      outcome.machine.returnStack = [8] := by
  intro program machine outcome
  have ha : (machine.evaluate program).machine.reports =
      machine.reports ++ #[.addressOutOfRange 9 0] := by decide
  have he : outcome = (machine.evaluate program).mapMachine (framed [7] [8]) :=
    evaluate_framed machine program [7] [8] ha (by decide)
  exact ⟨ha,he,by decide,by decide,by decide⟩

end Machine

end NandStack
