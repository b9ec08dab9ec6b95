import NandStack.Memory

/-!
Addresses of a memory, and memories with further cells of zeros behind their own.
-/

namespace NandStack.Memory

/-- An address has no cell when it is negative or beyond the last one. -/
theorem cell?_eq_none_iff {memory : Memory} {address : Int64} :
    memory.cell? address = none ↔ address.toInt < 0 ∨ memory.size ≤ address.toInt := by
  unfold cell?
  split
  · simp only [reduceCtorEq,false_iff]
    omega
  · simp only [true_iff]
    omega

/-- The addresses that memories can have are not affected by the conversion to 64 bits. -/
theorem cell?_ofNat {memory : Memory} {address : Nat} (h : address < memory.size)
    (hs : memory.size ≤ sizeLimit) : memory.cell? (Int64.ofNat address) = some ⟨address,h⟩ := by
  have ha : (Int64.ofNat address).toInt = address := by
    apply Int64.toInt_ofNat_of_lt
    rw [sizeLimit] at hs
    omega
  rw [cell?,dif_pos (by omega)]
  congr 2
  omega

/-- An address with a cell is the number of the cell. -/
theorem cell?_eq_some_iff {memory : Memory} {address : Int64} {cell : Fin memory.size} :
    memory.cell? address = some cell ↔ address.toInt = cell.val := by
  unfold cell?
  split
  · rw [Option.some_inj,Fin.ext_iff]
    dsimp only
    omega
  · simp only [reduceCtorEq,false_iff]
    omega

/-- Storing moves no cell. -/
theorem cell?_store (memory : Memory) (cell : Fin memory.size) (value address : Int64) :
    (memory.store cell value).cell? address =
      (memory.cell? address).map (Fin.cast (memory.size_store cell value).symm) := by
  unfold cell?
  simp only [size_store]
  split <;> rfl

theorem getElem?_store (memory : Memory) (cell : Fin memory.size) (value : Int64) (index : Nat) :
    (memory.store cell value).cells[index]? =
      if index = cell.val then some value else memory.cells[index]? := by
  rw [store,Array.getElem?_set,eq_comm]
  simp only [eq_comm]

theorem getElem?_load (memory : Memory) (cell : Fin memory.size) :
    memory.cells[cell.val]? = some (memory.load cell) :=
  Array.getElem?_eq_getElem cell.isLt

theorem load_store (memory : Memory) (cell : Fin memory.size) (value : Int64) :
    (memory.store cell value).load (cell.cast (memory.size_store cell value).symm) = value :=
  Array.getElem_set_self cell.isLt

theorem store_store (memory : Memory) (cell : Fin memory.size) (value later : Int64) :
    (memory.store cell value).store (cell.cast (memory.size_store cell value).symm) later =
      memory.store cell later :=
  congrArg Memory.mk (Array.set_set value cell.isLt)

theorem load_store_of_ne {memory : Memory} {cell other : Fin memory.size} (h : cell ≠ other)
    (value : Int64) :
    (memory.store cell value).load (other.cast (memory.size_store cell value).symm) =
      memory.load other :=
  Array.getElem_set_ne cell.isLt other.isLt (Fin.val_ne_of_ne h)

theorem store_comm {memory : Memory} {cell other : Fin memory.size} (h : cell ≠ other)
    (value later : Int64) :
    (memory.store cell value).store (other.cast (memory.size_store cell value).symm) later =
      (memory.store other later).store (cell.cast (memory.size_store other later).symm) value :=
  congrArg Memory.mk (@Array.set_comm _ value later _ _ memory.cells cell.isLt _ (Fin.val_ne_of_ne h))

theorem store_load (memory : Memory) (cell : Fin memory.size) :
    memory.store cell (memory.load cell) = memory :=
  congrArg Memory.mk (Array.set_getElem_self cell.isLt)

def padded (extra : Nat) (memory : Memory) : Memory :=
  ⟨memory.cells ++ Array.replicate extra 0⟩

@[simp] theorem size_padded (extra : Nat) (memory : Memory) :
    (memory.padded extra).size = memory.size + extra := by
  simp [padded,size]

theorem size_le_size_padded (extra : Nat) (memory : Memory) :
    memory.size ≤ (memory.padded extra).size := by
  rw [size_padded]
  exact Nat.le_add_right memory.size extra

/-- An address inside stands for the same cell. -/
theorem cell?_padded (extra : Nat) {memory : Memory} {address : Int64} {cell : Fin memory.size}
    (h : memory.cell? address = some cell) :
    (memory.padded extra).cell? address = some (cell.castLE (size_le_size_padded extra memory)) := by
  unfold cell? at h ⊢
  split at h
  · rename_i inside
    cases h
    rw [dif_pos ⟨inside.1,by rw [size_padded]; omega⟩]
    rfl
  · cases h

theorem load_padded (extra : Nat) (memory : Memory) (cell : Fin memory.size) :
    (memory.padded extra).load (cell.castLE (size_le_size_padded extra memory)) = memory.load cell :=
  Array.getElem_append_left cell.isLt

theorem store_padded (extra : Nat) (memory : Memory) (cell : Fin memory.size) (value : Int64) :
    (memory.padded extra).store (cell.castLE (size_le_size_padded extra memory)) value =
      (memory.store cell value).padded extra :=
  congrArg Memory.mk (Array.set_append_left cell.isLt)

/-- The memories that can be had are prefixes of each other. -/
theorem padded_of_allocate? {grants plenty : Nat → Bool} {size larger : Nat} {memory big : Memory}
    (h : size ≤ larger) (hm : allocate? grants size = some memory)
    (hb : allocate? plenty larger = some big) :
    big = memory.padded (larger - size) := by
  unfold allocate? at hm hb
  split at hm
  · split at hb
    · cases hm
      cases hb
      simp [padded,h]
    · cases hb
  · cases hm

theorem size_of_allocate? {grants : Nat → Bool} {size : Nat} {memory : Memory}
    (h : allocate? grants size = some memory) : memory.size = size := by
  unfold allocate? at h
  split at h
  · cases h
    exact Array.size_replicate
  · cases h

theorem size_le_of_allocate? {grants : Nat → Bool} {size : Nat} {memory : Memory}
    (h : allocate? grants size = some memory) : memory.size ≤ sizeLimit := by
  have hs := size_of_allocate? h
  unfold allocate? at h
  split at h
  · omega
  · cases h

end NandStack.Memory
