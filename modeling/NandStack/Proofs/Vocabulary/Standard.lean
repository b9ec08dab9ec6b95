import NandStack.Proofs.Machine.Pieces
import NandStack.Proofs.Memory
import NandStack.Proofs.Scopes
import NandStack.Proofs.Session.Creation

/-!
Standard machines: machines on which the words of the vocabulary have the bodies that the vocabulary
gives them and `temp` is the address of some cell. Every new machine with a cell is one, and it stays
one inside loops and when `temp` is declared anew.
-/

namespace NandStack.Machine

/-- The machine has the words of the vocabulary, `temp` means the address of the scratch cell, and no
frame is in the way. Names that the vocabulary does not define may mean anything. -/
structure Standard (machine : Machine) (scratch : Fin machine.memory.size) : Prop where
  words : ∀ name body, Vocabulary.bodies.find? name = some body →
    machine.dictionary.find? name = some body
  undefined : machine.dictionary.find? "temp" = none
  address : ∃ address, machine.variables.find? "temp" = some address ∧
    machine.memory.cell? (Int64.ofNat address) = some scratch
  only : machine.scopes.Only loopIndex

def initial (memory : Memory) (sink : Sink) (maxDepth : Nat) : Machine :=
  { blank memory sink maxDepth with
    dictionary := Vocabulary.bodies
    «variables» := ⟨[("temp", 0)]⟩
    nextAddress := 1 }

/-- The vocabulary is evaluated alike on all blank machines. -/
theorem evaluateSource_blank (memory : Memory) (sink : Sink) (maxDepth : Nat) :
    (blank memory sink maxDepth).evaluateSource Vocabulary.source =
      .finished (initial memory sink maxDepth) := by
  have hs := evaluateSource_of_ok (blank memory sink maxDepth) Vocabulary.ofSource_source
  rw [evaluate,runWithin_eq_run,Vocabulary.run_program] at hs
  exact hs

theorem create_initial {grants : Nat → Bool} {sizes : MachineSizes} {memory : Memory}
    (hm : Memory.allocate? grants (sizes.cells + sizes.reserved) = some memory) (sink : Sink) :
    create grants sizes sink = .ok (initial memory sink sizes.maxDepth) :=
  createWith_of_finished hm (evaluateSource_blank memory sink sizes.maxDepth)

namespace Standard

variable {machine : Machine}

theorem initial {memory : Memory} {sink : Sink} {maxDepth : Nat} (hc : 0 < memory.size)
    (hs : memory.size ≤ Memory.sizeLimit) :
    (Machine.initial memory sink maxDepth).Standard ⟨0,hc⟩ := by
  have hu : Vocabulary.bodies.find? "temp" = none := by decide
  exact ⟨fun _ _ hb => hb,hu,⟨0,rfl,Memory.cell?_ofNat hc hs⟩,nofun⟩

theorem enclose {scratch : Fin machine.memory.size} (h : machine.Standard scratch) (index : Int64) :
    Standard { machine with scopes := machine.scopes.enclose loopIndex index } scratch :=
  ⟨h.words,h.undefined,h.address,h.only.enclose index⟩

/-- The scratch cell goes wherever `temp` goes. -/
theorem redeclare {scratch : Fin machine.memory.size} (h : machine.Standard scratch)
    (hn : machine.nextAddress < machine.memory.size) (hs : machine.memory.size ≤ Memory.sizeLimit) :
    (machine.declare "temp").Standard ⟨machine.nextAddress,hn⟩ := by
  refine ⟨h.words,h.undefined,⟨machine.nextAddress,?_,Memory.cell?_ofNat hn hs⟩,h.only⟩
  rw [declare,NameTable.find?_insert,if_pos rfl]

end Standard

/-- A new machine needs a cell for `temp` and nothing else. -/
theorem standard_of_create {grants : Nat → Bool} {sizes : MachineSizes} {sink : Sink}
    {machine : Machine} (h : create grants sizes sink = .ok machine) (hc : 0 < machine.memory.size) :
    machine.Standard ⟨0,hc⟩ := by
  obtain ⟨memory,hm,-⟩ := createWith_eq_ok h
  cases (create_initial hm sink).symm.trans h
  exact .initial hc (Memory.size_le_of_allocate? hm)

end NandStack.Machine
