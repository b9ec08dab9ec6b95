import NandStack.Proofs.Machine.Steps

/-!
Growth: reports and printed text are never taken back. What a step adds to either comes after all
that is there, so a run that goes on keeps whatever was shown up to any of its moments.
-/

namespace NandStack.Machine

/-- The later machine has the reports and the printed text of the earlier one, and what it has
besides comes after them. -/
structure Grown (before after : Machine) : Prop where
  reports : ∃ added, after.reports = before.reports ++ added
  written : ∃ text, after.sink.written = before.sink.written ++ text

namespace Grown

theorem of_eq {before after : Machine} (hr : after.reports = before.reports)
    (hw : after.sink.written = before.sink.written) : Grown before after :=
  ⟨⟨#[],by rw [hr,Array.append_empty]⟩,⟨"",by rw [hw,String.append_empty]⟩⟩

theorem refl (machine : Machine) : Grown machine machine :=
  .of_eq rfl rfl

theorem trans {first second third : Machine} (h : Grown first second) (h' : Grown second third) :
    Grown first third := by
  obtain ⟨⟨added,hr⟩,⟨text,hw⟩⟩ := h
  obtain ⟨⟨later,hr'⟩,⟨more,hw'⟩⟩ := h'
  refine ⟨⟨added ++ later,?_⟩,⟨text ++ more,?_⟩⟩
  · rw [hr',hr,Array.append_assoc]
  · rw [hw',hw,String.append_assoc]

end Grown

theorem grown_report (machine : Machine) (fault : Fault) : Grown machine (machine.report fault) :=
  ⟨⟨#[fault],Array.push_eq_append⟩,⟨"",String.append_empty.symm⟩⟩

private theorem grown_print (machine : Machine) : Grown machine (Primitive.runPrint machine) := by
  unfold Primitive.runPrint Sink.writeLine
  split
  · rename_i value below _
    cases machine.sink.refusal machine.sink.offered with
    | none => exact ⟨⟨#[],Array.append_empty.symm⟩,⟨_,String.append_assoc⟩⟩
    | some reason =>
      exact ⟨⟨#[.outputFailed reason],Array.push_eq_append⟩,⟨"",String.append_empty.symm⟩⟩
  · exact grown_report machine _

theorem grown_primitive (primitive : Primitive) (machine : Machine) :
    Grown machine (primitive.run machine) := by
  cases primitive with
  | print => exact grown_print machine
  | store | fetch =>
    simp only [Primitive.run,Primitive.runStore,Primitive.runFetch]
    split
    · split
      · exact .of_eq rfl rfl
      · exact grown_report machine _
    · exact grown_report machine _
  | drop | toReturn | fromReturn | add | nand | isNegative =>
    simp only [Primitive.run,Primitive.combine,Primitive.runDrop,Primitive.runToReturn,
      Primitive.runFromReturn,Primitive.runIsNegative]
    split
    · exact .of_eq rfl rfl
    · exact grown_report machine _

namespace Configuration

def machine : Configuration → Machine
  | running _ _ machine => machine
  | turning _ _ _ _ _ machine => machine
  | unwinding _ _ machine => machine
  | halted outcome => outcome.machine

private theorem grown_call (name : String) (rest : Program) (pending : List Pending) (machine : Machine) :
    Grown machine (call name rest pending machine).machine := by
  unfold call
  cases machine.meaning name with
  | primitive primitive => exact grown_primitive primitive machine
  | word word =>
    dsimp only [enter]
    split <;> exact .of_eq rfl rfl
  | unknown => exact grown_report machine _
  | binding | address => exact .of_eq rfl rfl

/-- One step only adds. -/
theorem grown_step (configuration : Configuration) :
    Grown configuration.machine configuration.step.machine := by
  cases configuration with
  | running program pending machine =>
    cases program with
    | nil => rcases pending with _ | ⟨_ | _ | _,pending⟩ <;> exact .of_eq rfl rfl
    | push | define | declare => exact .of_eq rfl rfl
    | call name rest => exact grown_call name rest pending machine
    | ifThen | ifElse =>
      simp only [step,branch]
      split
      · exact .of_eq rfl rfl
      · exact grown_report machine _
    | loop body rest =>
      simp only [step,loop]
      split
      · exact .of_eq rfl rfl
      · exact grown_report machine _
  | turning body index limit rest pending machine =>
    rw [step]
    split <;> exact .of_eq rfl rfl
  | unwinding fault pending machine =>
    rcases pending with _ | ⟨_ | _ | _,pending⟩ <;> exact .of_eq rfl rfl
  | halted outcome => exact .refl _

private theorem grown_iterate (configuration : Configuration) (steps : Nat) :
    Grown configuration.machine (step^[steps] configuration).machine :=
  Function.Iterate.rec (fun later : Configuration => Grown configuration.machine later.machine)
    (.refl _) (fun later h => h.trans (grown_step later)) steps

end Configuration

theorem grown_evaluate (machine : Machine) (program : Program) :
    Grown machine (machine.evaluate program).machine := by
  obtain ⟨steps,he⟩ := leads_halted machine program
  have hg := Configuration.grown_iterate (.running program [] machine) steps
  rw [he] at hg
  exact hg

end NandStack.Machine
