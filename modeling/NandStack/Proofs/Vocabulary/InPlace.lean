import NandStack.Proofs.Vocabulary.Shuffles

/-!
Adding in place: `+!` is the one word that reads and writes a cell of its caller's. On the way it
passes the address through the scratch cell, so that this cell alone cannot be added to.
-/

namespace NandStack

namespace Machine

open Vocabulary (calls Attains)

variable {machine : Machine} {scratch cell : Fin machine.memory.size} {address : Int64}

private theorem evaluate_addInPlace_body (h : machine.Standard scratch) (hd : machine.depth + 1 ≤ machine.maxDepth)
    (hc : machine.memory.cell? address = some cell) (below returnStack : List Int64)
    (value held : Int64) :
    let passed := machine.memory.store scratch address
    let target : Fin passed.size := cell.cast (Memory.size_store ..).symm
    (machine.holding scratch ⟨address :: value :: below,returnStack,held⟩).evaluate
        (calls ["dup", ">r", "@", "+", "r>", "!"]) =
      .finished { machine with
        stack := below
        returnStack := returnStack
        memory := passed.store target (passed.load target + value) } := by
  intro passed target
  have ht : passed.cell? address = some target := by
    rw [Memory.cell?_store,hc]
    rfl
  have hdup : Attains 1 (.call "dup" .nil) ⟨address :: value :: below,returnStack,held⟩ fun values =>
      values = ⟨address :: address :: value :: below,returnStack,address⟩ :=
    Attains.dup_held (Attains.nil rfl)
  let after (stack returnStack : List Int64) : Machine :=
    machine.holding scratch ⟨stack,returnStack,address⟩
  calc
    _ = (after (address :: address :: value :: below) returnStack).evaluate
          (calls [">r", "@", "+", "r>", "!"]) := hdup.evaluate_append h hd _
    _ = (after (address :: value :: below) (address :: returnStack)).evaluate
          (calls ["@", "+", "r>", "!"]) := evaluate_primitive _ .toReturn _
    _ = (Primitive.runFetch (after (address :: value :: below) (address :: returnStack))).evaluate
          (calls ["+", "r>", "!"]) := evaluate_primitive _ .fetch _
    _ = (after (passed.load target :: value :: below) (address :: returnStack)).evaluate
          (calls ["+", "r>", "!"]) := by rw [Primitive.runFetch_of_cell? rfl ht]; rfl
    _ = (after ((passed.load target + value) :: below) (address :: returnStack)).evaluate
          (calls ["r>", "!"]) := evaluate_primitive _ .add _
    _ = (after (address :: (passed.load target + value) :: below) returnStack).evaluate
          (calls ["!"]) := evaluate_primitive _ .fromReturn _
    _ = (Primitive.runStore (after (address :: (passed.load target + value) :: below)
          returnStack)).evaluate .nil := evaluate_primitive _ .store _
    _ = _ := by rw [Primitive.runStore_of_cell? rfl ht,evaluate_nil]; rfl

private theorem evaluate_addInPlace (h : machine.Standard scratch) (hd : machine.depth + 2 ≤ machine.maxDepth)
    (hc : machine.memory.cell? address = some cell) (below : List Int64) (value : Int64) :
    let passed := machine.memory.store scratch address
    let target : Fin passed.size := cell.cast (Memory.size_store ..).symm
    { machine with stack := address :: value :: below }.evaluate (.call "+!" .nil) =
      .finished { machine with
        stack := below
        memory := passed.store target (passed.load target + value) } := by
  intro passed target
  let deeper : Machine := { machine with depth := machine.depth + 1 }
  let values : Values :=
    ⟨address :: value :: below,machine.returnStack,machine.memory.load scratch⟩
  have hl : deeper.depth + 1 ≤ deeper.maxDepth := by
    show machine.depth + 1 + 1 ≤ machine.maxDepth
    omega
  have hs : { machine with stack := address :: value :: below } = machine.holding scratch values := by
    simp only [holding,values,Memory.store_load]
  rw [hs,h.evaluate_word values rfl (by omega),
    evaluate_addInPlace_body (h.deeper (machine.depth + 1)) hl hc]
  exact evaluate_nil _

/-- `+!` adds a value in place to the cell of an address on every standard machine with two levels
left, and changes no other cell but the scratch cell. Added to the scratch cell itself, the value
comes to the address, which has taken the place of what the cell held. -/
theorem add_in_place (h : machine.Standard scratch) (hd : machine.depth + 2 ≤ machine.maxDepth)
    (ha : address.toInt = cell.val) (below : List Int64) (value : Int64) :
    (cell ≠ scratch → ∃ held,
      { machine with stack := address :: value :: below }.evaluate (.call "+!" .nil) =
        .finished { machine with
          stack := below
          memory := (machine.memory.store cell (machine.memory.load cell + value)).store
            (scratch.cast (Memory.size_store ..).symm) held }) ∧
    (cell = scratch →
      { machine with stack := address :: value :: below }.evaluate (.call "+!" .nil) =
        .finished { machine with
          stack := below
          memory := machine.memory.store scratch (address + value) }) := by
  have he := evaluate_addInPlace h hd (Memory.cell?_eq_some_iff.mpr ha) below value
  constructor
  · intro hn
    refine ⟨address,?_⟩
    rw [he,Memory.load_store_of_ne hn.symm,Memory.store_comm hn.symm]
  · rintro rfl
    rw [he,Memory.load_store,Memory.store_store]

/-- Inside a loop, at the second of two cells, the sum wraps. At the first cell, which is the scratch
cell, the value comes to the address. -/
theorem add_in_place_wrapping :
    let known := initial ⟨#[5, Int64.maxValue]⟩ .unlimited 2
    let inside : Machine := { known with scopes := known.scopes.enclose loopIndex 7 }
    (∃ held, { inside with stack := [1, 2, 3] }.evaluate (.call "+!" .nil) =
      .finished { inside with stack := [3], memory := ⟨#[held, Int64.minValue + 1]⟩ }) ∧
    { inside with stack := [0, 2, 3] }.evaluate (.call "+!" .nil) =
      .finished { inside with stack := [3], memory := ⟨#[2, Int64.maxValue]⟩ } := by
  intro known inside
  have hc : 0 < known.memory.size := Nat.two_pos
  have hk : known.Standard ⟨0,hc⟩ := .initial hc (by decide)
  have hi : inside.Standard ⟨0,hc⟩ := hk.enclose 7
  let second : Fin inside.memory.size := ⟨1,Nat.one_lt_two⟩
  have hs : Int64.toInt 1 = second.val := by decide
  have hn : second ≠ ⟨0,hc⟩ := Fin.ne_of_val_ne Nat.one_ne_zero
  obtain ⟨held,he⟩ := (add_in_place hi (Nat.le_refl 2) hs [3] 2).1 hn
  exact ⟨⟨held,he⟩,(add_in_place hi (Nat.le_refl 2) rfl [3] 2).2 rfl⟩

end Machine

end NandStack
