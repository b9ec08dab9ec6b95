/-!
Bits: the identities behind the words of the vocabulary. Sums and complements give all bitwise
operations, and signs give both orders.
-/

namespace NandStack.Bits

section Carry

variable {width : Nat} (x y : BitVec width)

private theorem and_not_add_and : (x &&& ~~~y) + (x &&& y) = x := by
  have hd : (x &&& ~~~y) &&& (x &&& y) = 0 := by
    ext i hi
    grind
  rw [BitVec.add_eq_or_of_and_eq_zero _ _ hd]
  ext i hi
  grind

private theorem and_not_add_and_not : (x &&& ~~~y) + (y &&& ~~~x) = x ^^^ y := by
  have hd : (x &&& ~~~y) &&& (y &&& ~~~x) = 0 := by
    ext i hi
    grind
  rw [BitVec.add_eq_or_of_and_eq_zero _ _ hd]
  ext i hi
  grind

private theorem xor_eq_add_sub : x ^^^ y = x + y - ((x &&& y) + (x &&& y)) := by
  have hx := and_not_add_and x y
  have hy := and_not_add_and y x
  rw [BitVec.and_comm y x] at hy
  calc
    x ^^^ y = (x &&& ~~~y) + (y &&& ~~~x) := (and_not_add_and_not x y).symm
    _ = ((x &&& ~~~y) + (x &&& y)) + ((y &&& ~~~x) + (x &&& y)) - ((x &&& y) + (x &&& y)) := by grind
    _ = x + y - ((x &&& y) + (x &&& y)) := by rw [hx,hy]

end Carry

variable (x y : Int64)

theorem not_not_and_not : ~~~(~~~x &&& ~~~y) = x ||| y := by
  apply Int64.toBitVec_inj.mp
  simp [BitVec.not_and]

theorem xor_eq_sub : x ^^^ y = x + y - 2 * (x &&& y) := by
  rw [Int64.two_mul]
  apply Int64.toBitVec_inj.mp
  simp only [Int64.toBitVec_xor,Int64.toBitVec_add,Int64.toBitVec_sub,Int64.toBitVec_and]
  exact xor_eq_add_sub x.toBitVec y.toBitVec

private theorem neg_iff_msb {x : Int64} : x < 0 ↔ x.toBitVec.msb = true := by
  rw [Int64.lt_iff_toBitVec_slt,← BitVec.slt_zero_eq_msb]
  rfl

variable {x y}

/-- The bits of two numbers differ in the sign exactly when the signs differ. -/
theorem xor_neg_iff : x ^^^ y < 0 ↔ ¬ (x < 0 ↔ y < 0) := by
  simp only [neg_iff_msb,Int64.toBitVec_xor,BitVec.msb_xor]
  grind

theorem lt_iff_of_signs_ne (h : ¬ (x < 0 ↔ y < 0)) : x < y ↔ x < 0 := by
  simp only [Int64.lt_iff_toInt_lt,Int64.toInt_zero] at h ⊢
  omega

/-- The difference of numbers of one sign is in range. -/
theorem lt_iff_of_signs_eq (h : x < 0 ↔ y < 0) : x < y ↔ x - y < 0 := by
  have hx := Int64.le_toInt x
  have hx' := Int64.toInt_lt x
  have hy := Int64.le_toInt y
  have hy' := Int64.toInt_lt y
  simp only [Int64.lt_iff_toInt_lt,Int64.toInt_zero] at h ⊢
  rw [Int64.toInt_sub,Int.bmod_eq_of_le (by omega) (by omega)]
  omega

theorem toUInt64_lt_iff_of_signs_ne (h : ¬ (x < 0 ↔ y < 0)) :
    x.toUInt64 < y.toUInt64 ↔ y < 0 := by
  have hm : x.toBitVec.msb ≠ y.toBitVec.msb := by
    simpa [neg_iff_msb] using h
  rw [neg_iff_msb,← BitVec.ult_eq_msb_of_msb_neq hm,BitVec.ult_iff_lt]
  rfl

theorem toUInt64_lt_iff_of_signs_eq (h : x < 0 ↔ y < 0) :
    x.toUInt64 < y.toUInt64 ↔ x - y < 0 := by
  have hm : x.toBitVec.msb = y.toBitVec.msb := by
    simpa [neg_iff_msb] using h
  rw [← lt_iff_of_signs_eq h,Int64.lt_iff_toBitVec_slt,BitVec.slt_eq_ult_of_msb_eq hm,
    BitVec.ult_iff_lt]
  rfl

end NandStack.Bits
