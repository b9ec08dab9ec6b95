import NandStack.Token

/-!
Reading inverts writing: the numeral of every signed 64-bit value, the least one included, reads
back as that value. Numerals consist of digits and at most one minus sign.
-/

namespace NandStack.Decimal

private theorem natural?_toDigits (n : Nat) : natural? (Nat.toDigits 10 n) = some n := by
  have hd : (Nat.toDigits 10 n).all Char.isDigit := by
    rw [List.all_eq_true]
    intro digit hm
    exact Nat.isDigit_of_mem_toDigits (by decide) (by decide) hm
  rw [natural?,if_pos ⟨Nat.toDigits_ne_nil,hd⟩,Nat.ofDigitChars_ten_toDigits]

/-- Digits without a minus sign before them stand for the natural number itself. -/
theorem integer?_of_natural? {digits : List Char} {n : Nat} (h : natural? digits = some n) :
    integer? digits = some (n : Int) := by
  unfold integer?
  split
  · rw [natural?] at h
    split at h
    · rename_i hd
      exact absurd (List.all_eq_true.mp hd.2 '-' List.mem_cons_self) (by decide)
    · cases h
  · rw [h]
    rfl

private theorem toList_write (value : Int64) :
    (write value).toList =
      if 0 ≤ value.toInt then Nat.toDigits 10 value.toInt.toNat
      else '-' :: Nat.toDigits 10 (-value.toInt).toNat := by
  rw [write,Int.repr_eq_if]
  split
  · exact Nat.toList_repr
  · rw [String.toList_append,Nat.toList_repr]
    rfl

theorem integer?_write (value : Int64) : integer? (write value).toList = some value.toInt := by
  rw [toList_write]
  split
  · rename_i hp
    rw [integer?_of_natural? (natural?_toDigits _),Int.toNat_of_nonneg hp]
  · rename_i hn
    rw [integer?,natural?_toDigits]
    change some (-((-value.toInt).toNat : Int)) = _
    rw [Int.toNat_of_nonneg (by omega),Int.neg_neg]

/-- Every value reads back from its numeral. -/
theorem read?_write (value : Int64) : read? (write value) = some value := by
  rw [read?,integer?_write,Option.bind_some,
    if_pos ⟨value.minValue_le_toInt,value.toInt_le⟩,Int64.ofInt_toInt]

theorem write_ne_empty (value : Int64) : write value ≠ "" := by
  intro he
  have hl := toList_write value
  rw [he] at hl
  split at hl
  · exact Nat.toDigits_ne_nil hl.symm
  · cases hl

theorem isDigit_or_minus_of_mem_write {value : Int64} {character : Char}
    (h : character ∈ (write value).toList) : character.isDigit ∨ character = '-' := by
  rw [toList_write] at h
  split at h
  · exact .inl (Nat.isDigit_of_mem_toDigits (by decide) (by decide) h)
  · rcases List.mem_cons.mp h with he | hm
    · exact .inr he
    · exact .inl (Nat.isDigit_of_mem_toDigits (by decide) (by decide) hm)

end NandStack.Decimal
