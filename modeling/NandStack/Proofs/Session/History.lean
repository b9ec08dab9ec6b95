import NandStack.Session
import NandStack.Proofs.Machine.Balance
import NandStack.Proofs.Session.Creation

/-!
Histories: whatever is asked of a machine since its creation, no scope and no depth is left over
between two requests, and within a request a loop always finds its own index.
-/

namespace NandStack

namespace Machine

open Machine.Configuration (running halted step Leads)

/-- A text that is no program leaves the machine as it is, any other is evaluated as a program. -/
theorem evaluateSource_of_evaluate {motive : Machine → Prop} {machine : Machine} (hm : motive machine)
    (he : ∀ program, motive (machine.evaluate program).machine) (source : String) :
    motive (machine.evaluateSource source).machine := by
  unfold evaluateSource
  split
  · rw [Outcome.machine_mapError]
    exact he _
  · exact hm

private theorem unwound_evaluateSource (machine : Machine) (source : String) :
    Unwound machine (machine.evaluateSource source).machine :=
  evaluateSource_of_evaluate (motive := Unwound machine) (.refl machine) (unwound_evaluate machine)
    source

inductive Request where
  | evaluate (program : Program)
  | evaluateSource (source : String)
  | runSource (source : String)
  | takeReports

def serve (machine : Machine) : Request → Machine
  | .evaluate program => (machine.evaluate program).machine
  | .evaluateSource source => (machine.evaluateSource source).machine
  | .runSource source => (machine.runSource source).1
  | .takeReports => machine.drainReports

theorem unwound_serve (machine : Machine) (request : Request) :
    Unwound machine (machine.serve request) := by
  cases request with
  | evaluate program => exact unwound_evaluate machine program
  | evaluateSource source => exact unwound_evaluateSource machine source
  | runSource source =>
    obtain ⟨hs,hd,hm⟩ := unwound_evaluateSource machine source
    exact ⟨hs,hd,hm⟩
  | takeReports => exact ⟨rfl,rfl,rfl⟩

theorem unwound_foldl_serve (machine : Machine) (requests : List Request) :
    Unwound machine (requests.foldl serve machine) := by
  induction requests generalizing machine with
  | nil => exact .refl machine
  | cons request requests ih => exact (unwound_serve machine request).trans (ih _)

private theorem scopes_depth_of_createWith {vocabulary : String} {grants : Nat → Bool}
    {sizes : MachineSizes} {sink : Sink} {machine : Machine}
    (h : createWith vocabulary grants sizes sink = .ok machine) :
    machine.scopes = .empty ∧ machine.depth = 0 := by
  obtain ⟨memory,-,he⟩ := createWith_eq_ok h
  have hu := unwound_evaluateSource (blank memory sink sizes.maxDepth) vocabulary
  rw [he] at hu
  exact ⟨hu.scopes,hu.depth⟩

/-- Scopes and depth are always unwound: by every evaluation, and so between all requests to every
machine. While an evaluation takes its steps, the scopes are those of the running loops inside
those it began with, and the name of the index denotes the index of the innermost one. -/
theorem scopes_always_unwound :
    (∀ (machine : Machine) (program : Program),
      (machine.evaluate program).machine.scopes = machine.scopes ∧
        (machine.evaluate program).machine.depth = machine.depth) ∧
    (∀ (grants : Nat → Bool) (sizes : MachineSizes) (sink : Sink) (machine : Machine),
      create grants sizes sink = .ok machine → ∀ requests : List Request,
        (requests.foldl serve machine).scopes = .empty ∧
          (requests.foldl serve machine).depth = 0) ∧
    (∀ (machine : Machine) (program : Program),
      Leads (running program [] machine) (halted (machine.evaluate program)) ∧
      ∀ steps rest pending now, step^[steps] (running program [] machine) = running rest pending now →
        now.scopes.frames = Pending.frames pending ++ machine.scopes.frames ∧
        ∀ index, Pending.index? pending = some index → now.meaning loopIndex = .binding index) := by
  refine ⟨?_,?_,?_⟩
  · intro machine program
    have hu := unwound_evaluate machine program
    exact ⟨hu.scopes,hu.depth⟩
  · intro grants sizes sink machine h requests
    obtain ⟨hs,hd⟩ := scopes_depth_of_createWith h
    have hu := unwound_foldl_serve machine requests
    exact ⟨hu.scopes.trans hs,hu.depth.trans hd⟩
  · intro machine program
    refine ⟨leads_halted machine program,?_⟩
    intro steps rest pending now he
    have hb := Configuration.balanced_run machine program steps
    rw [he] at hb
    refine ⟨hb.frames_eq,?_⟩
    intro index hi
    have hg : now.scopes.get? loopIndex = some index := by
      rw [Scopes.get?,hb.frames_eq]
      exact Pending.lookup_frames hi _
    exact meaning_of_get? (by decide) hg

/-- On a new machine, just after an inner loop has ended at 1: the index is the outer 5 again. -/
theorem scopes_always_unwound_nested :
    let body := Program.push 0 (.push 1 (.loop .nil (.call "i" .nil)))
    let program := Program.push 5 (.push 6 (.loop body .nil))
    ∃ machine, create (fun _ => true) .default .unlimited = .ok machine ∧
      (machine.serve (.evaluate program)).scopes = .empty ∧
      ∃ now, step^[10] (running program [] machine) =
          running (.call "i" .nil) [.loop body 5 6 .nil] now ∧
        now.meaning loopIndex = .binding 5 := by
  intro body program
  obtain ⟨machine,hc,hf⟩ := fresh_create (fun _ => true) .default .unlimited rfl
  have hs := scopes_always_unwound.2.1 _ .default .unlimited machine hc [.evaluate program]
  have hn := (scopes_always_unwound.2.2 machine program).2 10
  obtain ⟨dictionary,addresses,nextAddress,rfl⟩ := hf
  exact ⟨_,hc,hs.1,_,rfl,(hn _ _ _ rfl).2 5 rfl⟩

end Machine

end NandStack
