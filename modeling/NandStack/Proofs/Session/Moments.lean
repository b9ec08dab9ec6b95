import NandStack.Proofs.Machine.Tables
import NandStack.Proofs.Session.History

/-!
Moments: a session rests between its evaluations or is somewhere inside one of them. Its moments
follow each other by single steps and, at rest, by whatever is asked for next.
-/

namespace NandStack.Machine

namespace Configuration

/-- From one moment of a session to a later one, with the names declared in between, in order. It
makes no difference to what comes next whether an evaluation finished or was aborted. -/
inductive Reaches (first : Configuration) : List String → Configuration → Prop where
  | refl : Reaches first [] first
  | step {names : List String} {now : Configuration} (h : Reaches first names now) :
    Reaches first (names ++ now.declaring?.toList) now.step
  | evaluate {names : List String} {outcome : Outcome Fault}
    (h : Reaches first names (halted outcome)) (program : Program) :
    Reaches first names (running program [] outcome.machine)
  | takeReports {names : List String} {outcome : Outcome Fault}
    (h : Reaches first names (halted outcome)) :
    Reaches first names (halted (.finished outcome.machine.drainReports))
  | takeOutput {names : List String} {outcome : Outcome Fault}
    (h : Reaches first names (halted outcome)) :
    Reaches first names (halted (.finished outcome.machine.drainOutput))

def declared (configuration : Configuration) : Nat → List String
  | 0 => []
  | steps + 1 => configuration.declaring?.toList ++ configuration.step.declared steps

variable {first now : Configuration} {names : List String}

theorem Reaches.iterate (h : Reaches first names now) (steps : Nat) :
    Reaches first (names ++ now.declared steps) (Configuration.step^[steps] now) := by
  induction steps generalizing names now with
  | zero =>
    rw [declared,List.append_nil]
    exact h
  | succ steps ih =>
    rw [declared,← List.append_assoc]
    exact ih h.step

/-- A word that is defined at one moment is defined at every later one. -/
theorem Reaches.isDefined (h : Reaches first names now) {name : String}
    (hd : first.machine.isDefined name) : now.machine.isDefined name := by
  induction h with
  | refl => exact hd
  | step _ ih => exact isDefined_step ih
  | evaluate _ _ ih | takeReports _ ih | takeOutput _ ih => exact ih

/-- An evaluation is a part of the session, and what it declares is what its steps declare. -/
theorem Reaches.evaluated {outcome : Outcome Fault} (h : Reaches first names (halted outcome))
    (program : Program) :
    ∃ steps, Reaches first (names ++ (running program [] outcome.machine).declared steps)
      (halted (outcome.machine.evaluate program)) := by
  obtain ⟨steps,he⟩ := leads_halted outcome.machine program
  have hr := (h.evaluate program).iterate steps
  rw [he] at hr
  exact ⟨steps,hr⟩

def Rests (first : Configuration) (machine : Machine) : Prop :=
  ∃ names outcome, Reaches first names (halted outcome) ∧ outcome.machine = machine

private theorem Rests.evaluate {machine : Machine} (h : Rests first machine) (program : Program) :
    Rests first (machine.evaluate program).machine := by
  obtain ⟨names,outcome,hr,rfl⟩ := h
  obtain ⟨steps,he⟩ := hr.evaluated program
  exact ⟨_,_,he,rfl⟩

private theorem Rests.evaluateSource {machine : Machine} (h : Rests first machine) (source : String) :
    Rests first (machine.evaluateSource source).machine :=
  evaluateSource_of_evaluate (motive := Rests first) h h.evaluate source

private theorem Rests.takeReports {machine : Machine} (h : Rests first machine) :
    Rests first machine.drainReports := by
  obtain ⟨names,outcome,hr,rfl⟩ := h
  exact ⟨names,_,hr.takeReports,rfl⟩

private theorem Rests.serve {machine : Machine} (h : Rests first machine) (request : Request) :
    Rests first (machine.serve request) := by
  cases request with
  | evaluate program => exact h.evaluate program
  | evaluateSource source => exact h.evaluateSource source
  | runSource source => exact (h.evaluateSource source).takeReports
  | takeReports => exact h.takeReports

/-- Whatever is asked of a machine leaves it where a session of single steps comes to rest. -/
theorem Rests.requests {machine : Machine} (h : Rests first machine) (requests : List Request) :
    Rests first (requests.foldl Machine.serve machine) := by
  induction requests generalizing machine with
  | nil => exact h
  | cons request requests ih => exact ih (h.serve request)

end Configuration

end NandStack.Machine
