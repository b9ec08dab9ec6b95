/-!
Memory: a fixed number of 64-bit cells with the addresses from zero on. Every other address,
negative ones included, is outside.
-/

namespace NandStack

structure Memory where
  cells : Array Int64
  deriving DecidableEq, Repr

namespace Memory

abbrev size (memory : Memory) : Nat :=
  memory.cells.size

/-- The least number of cells whose bytes are more than a signed 64-bit number counts. -/
def sizeLimit : Nat := 0x1000000000000000

/-- A memory of zeros. There is none at the limit or above, and below it the allocator decides:
`grants` says for which numbers of cells it has the room. No cells take no room. -/
def allocate? (grants : Nat → Bool) (size : Nat) : Option Memory :=
  if size < sizeLimit ∧ (size = 0 ∨ grants size) then some ⟨Array.replicate size 0⟩ else none

def cell? (memory : Memory) (address : Int64) : Option (Fin memory.size) :=
  if inside : 0 ≤ address.toInt ∧ address.toInt.toNat < memory.size then
    some ⟨address.toInt.toNat, inside.2⟩
  else none

def load (memory : Memory) (cell : Fin memory.size) : Int64 :=
  memory.cells[cell]

def store (memory : Memory) (cell : Fin memory.size) (value : Int64) : Memory :=
  ⟨memory.cells.set cell.val value cell.isLt⟩

@[simp] theorem size_store (memory : Memory) (cell : Fin memory.size) (value : Int64) :
    (memory.store cell value).size = memory.size := by
  simp [store, size]

end Memory

end NandStack
