import NandStack.Proofs.Vocabulary.Words

/-!
Creation: the vocabulary only fills the tables of a machine, so a machine is created whenever its
memory can be had, and is otherwise blank.
-/

namespace NandStack

/-- Nothing at the top of the program acts on more than the tables. -/
def Program.declares : Program → Bool
  | nil => true
  | define _ _ rest => rest.declares
  | declare _ rest => rest.declares
  | _ => false

def Program.declarations : Program → List String
  | declare name rest => name :: rest.declarations
  | define _ _ rest => rest.declarations
  | _ => []

namespace Vocabulary

theorem declarations_source : ∃ program, Program.ofSource source = .ok program ∧
    program.declares ∧ program.declarations = ["temp"] :=
  ⟨program,ofSource_source,rfl,rfl⟩

private theorem declares_source : ∃ program, Program.ofSource source = .ok program ∧ program.declares := by
  obtain ⟨program,hp,hd,-⟩ := declarations_source
  exact ⟨program,hp,hd⟩

end Vocabulary

namespace Machine

/-- The machine differs from a blank one in what its tables hold and in nothing else. -/
def Fresh (memory : Memory) (sink : Sink) (maxDepth : Nat) (machine : Machine) : Prop :=
  ∃ dictionary addresses nextAddress, machine =
    { blank memory sink maxDepth with
      dictionary := dictionary, «variables» := addresses, nextAddress := nextAddress }

variable {memory : Memory} {sink : Sink} {maxDepth : Nat}

private theorem fresh_blank : Fresh memory sink maxDepth (blank memory sink maxDepth) :=
  ⟨_,_,_,rfl⟩

private theorem fresh_run {program : Program} (h : program.declares)
    (enter : Program → Machine → Outcome Fault) {machine : Machine}
    (hf : Fresh memory sink maxDepth machine) :
    ∃ after, run enter program machine = .finished after ∧ Fresh memory sink maxDepth after := by
  induction program generalizing machine with
  | nil => exact ⟨machine,rfl,hf⟩
  | define name body rest _ ih =>
    obtain ⟨dictionary,addresses,nextAddress,rfl⟩ := hf
    exact ih h ⟨_,_,_,rfl⟩
  | declare name rest ih =>
    obtain ⟨dictionary,addresses,nextAddress,rfl⟩ := hf
    exact ih h ⟨_,_,_,rfl⟩
  | push | call | ifThen | ifElse | loop => cases h

private theorem fresh_evaluateSource {source : String} {program : Program}
    (hp : Program.ofSource source = .ok program) (hd : program.declares) :
    ∃ machine, (blank memory sink maxDepth).evaluateSource source = .finished machine ∧
      Fresh memory sink maxDepth machine := by
  have hr : ∀ levels, ∃ machine,
      runWithin levels program (blank memory sink maxDepth) = .finished machine ∧
        Fresh memory sink maxDepth machine := by
    intro levels
    cases levels <;> exact fresh_run hd _ fresh_blank
  obtain ⟨machine,he,hf⟩ := hr (maxDepth - 0)
  refine ⟨machine,?_,hf⟩
  simp only [evaluateSource,hp]
  exact congrArg (Outcome.mapError EvalError.runtime) he

theorem createWith_of_finished {vocabulary : String} {grants : Nat → Bool} {sizes : MachineSizes}
    {sink : Sink} {machine : Machine}
    (hm : Memory.allocate? grants (sizes.cells + sizes.reserved) = some memory)
    (he : (blank memory sink sizes.maxDepth).evaluateSource vocabulary = .finished machine) :
    createWith vocabulary grants sizes sink = .ok machine := by
  simp only [createWith,hm,he]

private theorem fresh_createWith {vocabulary : String} {program : Program}
    (hp : Program.ofSource vocabulary = .ok program) (hd : program.declares)
    {grants : Nat → Bool} (sizes : MachineSizes) (sink : Sink)
    (hm : Memory.allocate? grants (sizes.cells + sizes.reserved) = some memory) :
    ∃ machine, createWith vocabulary grants sizes sink = .ok machine ∧
      Fresh memory sink sizes.maxDepth machine := by
  obtain ⟨machine,he,hf⟩ := fresh_evaluateSource hp hd
  exact ⟨machine,createWith_of_finished hm he,hf⟩

/-- A machine is created by evaluating a vocabulary to its end. -/
theorem createWith_eq_ok {vocabulary : String} {grants : Nat → Bool} {sizes : MachineSizes}
    {sink : Sink} {machine : Machine} (h : createWith vocabulary grants sizes sink = .ok machine) :
    ∃ memory, Memory.allocate? grants (sizes.cells + sizes.reserved) = some memory ∧
      (blank memory sink sizes.maxDepth).evaluateSource vocabulary = .finished machine := by
  unfold createWith at h
  split at h
  · cases h
  · rename_i memory hm
    refine ⟨memory,hm,?_⟩
    split at h
    · rename_i he
      cases h
      exact he
    · cases h

/-- A machine is created whenever its memory can be had, and is blank but for its tables. -/
theorem fresh_create (grants : Nat → Bool) (sizes : MachineSizes) (sink : Sink)
    (hm : Memory.allocate? grants (sizes.cells + sizes.reserved) = some memory) :
    ∃ machine, create grants sizes sink = .ok machine ∧ Fresh memory sink sizes.maxDepth machine := by
  obtain ⟨program,hp,hd⟩ := Vocabulary.declares_source
  exact fresh_createWith hp hd sizes sink hm

/-- All machines that are created are fresh. -/
theorem fresh_of_create {grants : Nat → Bool} {sizes : MachineSizes} {sink : Sink}
    {machine : Machine} (h : create grants sizes sink = .ok machine) :
    ∃ memory, Memory.allocate? grants (sizes.cells + sizes.reserved) = some memory ∧
      Fresh memory sink sizes.maxDepth machine := by
  obtain ⟨memory,hm,-⟩ := createWith_eq_ok h
  obtain ⟨fresh,hc,hf⟩ := fresh_create grants sizes sink hm
  cases h.symm.trans hc
  exact ⟨memory,hm,hf⟩

end Machine

end NandStack
