import NandStack.Proofs.Vocabulary.Arithmetic

/-!
Comparisons: the words that leave a flag. The difference of two numbers tells their order as long as
their signs agree, and the signs tell it when they do not.
-/

namespace NandStack

namespace Vocabulary.Attains

variable {levels : Nat} {rest : Program} {post : Machine.Values → Prop}
  {stack returnStack : List Int64} {held x y : Int64}

theorem isZero
    (h : ∀ held, Attains (levels + 1) rest ⟨flag (x = 0) :: stack,returnStack,held⟩ post) :
    Attains (levels + 1) (.call "0=" rest) ⟨x :: stack,returnStack,held⟩ post := by
  apply word rfl
  apply ifElse
  · intro hx
    rw [flag,if_neg hx] at h
    apply push
    exact nil (h held)
  · intro hx
    rw [flag,if_pos hx] at h
    apply push
    exact nil (h held)

theorem equal
    (h : ∀ held, Attains (levels + 4) rest ⟨flag (x = y) :: stack,returnStack,held⟩ post) :
    Attains (levels + 4) (.call "=" rest) ⟨y :: x :: stack,returnStack,held⟩ post := by
  have hz : x - y = 0 ↔ x = y := by grind
  apply word rfl
  apply minus
  intro held
  apply isZero
  intro held
  rw [flag_congr hz]
  exact nil (h held)

theorem notEqual
    (h : ∀ held, Attains (levels + 5) rest ⟨flag (x ≠ y) :: stack,returnStack,held⟩ post) :
    Attains (levels + 5) (.call "<>" rest) ⟨y :: x :: stack,returnStack,held⟩ post := by
  apply word rfl
  apply equal
  intro held
  apply isZero
  intro held
  rw [flag_congr flag_eq_zero_iff]
  exact nil (h held)

private theorem bySigns {differing agreeing : Program}
    (hn : ¬ (x < 0 ↔ y < 0) → ∀ held,
      Attains (levels + 3) (differing.append rest) ⟨y :: x :: stack,returnStack,held⟩ post)
    (he : (x < 0 ↔ y < 0) → ∀ held,
      Attains (levels + 3) (agreeing.append rest) ⟨y :: x :: stack,returnStack,held⟩ post) :
    Attains (levels + 3) (.call "2dup" (.call "xor" (.call "0<" (.ifElse differing agreeing rest))))
      ⟨y :: x :: stack,returnStack,held⟩ post := by
  apply twoDup
  intro held
  apply bitXor
  intro held
  apply isNegative
  apply ifElse
  · intro hs
    rw [ne_eq,flag_eq_zero_iff,not_not,Bits.xor_neg_iff] at hs
    exact hn hs held
  · intro hs
    rw [flag_eq_zero_iff,Bits.xor_neg_iff,not_not] at hs
    exact he hs held

/-- Where the signs differ, the sign of the first number decides. -/
theorem less
    (h : ∀ held, Attains (levels + 4) rest ⟨flag (x < y) :: stack,returnStack,held⟩ post) :
    Attains (levels + 4) (.call "<" rest) ⟨y :: x :: stack,returnStack,held⟩ post := by
  apply word rfl
  apply bySigns
  · intro hs held
    apply drop
    apply isNegative
    rw [← flag_congr (Bits.lt_iff_of_signs_ne hs)]
    exact nil (h held)
  · intro hs held
    apply minus
    intro held
    apply isNegative
    rw [← flag_congr (Bits.lt_iff_of_signs_eq hs)]
    exact nil (h held)

theorem greater
    (h : ∀ held, Attains (levels + 5) rest ⟨flag (x > y) :: stack,returnStack,held⟩ post) :
    Attains (levels + 5) (.call ">" rest) ⟨y :: x :: stack,returnStack,held⟩ post := by
  apply word rfl
  apply swap
  intro held
  apply less
  intro held
  exact nil (h held)

/-- Where the signs differ, the number that is negative when it is read with a sign is the larger. -/
theorem lessUnsigned
    (h : ∀ held, Attains (levels + 4) rest
      ⟨flag (x.toUInt64 < y.toUInt64) :: stack,returnStack,held⟩ post) :
    Attains (levels + 4) (.call "u<" rest) ⟨y :: x :: stack,returnStack,held⟩ post := by
  apply word rfl
  apply bySigns
  · intro hs held
    apply nip
    intro held
    apply isNegative
    rw [← flag_congr (Bits.toUInt64_lt_iff_of_signs_ne hs)]
    exact nil (h held)
  · intro hs held
    apply minus
    intro held
    apply isNegative
    rw [← flag_congr (Bits.toUInt64_lt_iff_of_signs_eq hs)]
    exact nil (h held)

theorem greaterUnsigned
    (h : ∀ held, Attains (levels + 5) rest
      ⟨flag (x.toUInt64 > y.toUInt64) :: stack,returnStack,held⟩ post) :
    Attains (levels + 5) (.call "u>" rest) ⟨y :: x :: stack,returnStack,held⟩ post := by
  apply word rfl
  apply swap
  intro held
  apply lessUnsigned
  intro held
  exact nil (h held)

end Vocabulary.Attains

namespace Machine

open Vocabulary Vocabulary.Attains

/-- The comparison words leave the right flag for all numbers, on every standard machine with five
levels left. No difference is too large for them. -/
theorem comparison_words_correct {machine : Machine} {scratch : Fin machine.memory.size}
    (h : machine.Standard scratch) (hd : machine.depth + 5 ≤ machine.maxDepth)
    (below : List Int64) (x y : Int64) :
    machine.Leaves scratch "0=" (x :: below) (flag (x = 0) :: below) ∧
    machine.Leaves scratch "=" (y :: x :: below) (flag (x = y) :: below) ∧
    machine.Leaves scratch "<>" (y :: x :: below) (flag (x ≠ y) :: below) ∧
    machine.Leaves scratch "<" (y :: x :: below) (flag (x < y) :: below) ∧
    machine.Leaves scratch ">" (y :: x :: below) (flag (x > y) :: below) ∧
    machine.Leaves scratch "u<" (y :: x :: below) (flag (x.toUInt64 < y.toUInt64) :: below) ∧
    machine.Leaves scratch "u>" (y :: x :: below) (flag (x.toUInt64 > y.toUInt64) :: below) := by
  refine ⟨?isZero,?equal,?notEqual,?less,?greater,?lessUnsigned,?greaterUnsigned⟩
  case isZero => exact leaves isZero h hd
  case equal => exact leaves equal h hd
  case notEqual => exact leaves notEqual h hd
  case less => exact leaves less h hd
  case greater => exact leaves greater h hd
  case lessUnsigned => exact leaves lessUnsigned h hd
  case greaterUnsigned => exact leaves greaterUnsigned h hd

/-- On a new machine with a single cell, inside a loop, at both ends of the range. Their difference
wraps to one, and each order still has them its own way. -/
theorem comparison_words_correct_overflowing :
    let new := initial ⟨#[0]⟩ .unlimited 5
    let inside : Machine := { new with scopes := new.scopes.enclose loopIndex 7 }
    let scratch : Fin inside.memory.size := ⟨0,Nat.one_pos⟩
    create (fun _ => true) ⟨1,0,5⟩ .unlimited = .ok new ∧
      inside.Leaves scratch "<" [Int64.maxValue, Int64.minValue] [-1] ∧
      inside.Leaves scratch "u<" [Int64.maxValue, Int64.minValue] [0] ∧
      inside.Leaves scratch "<>" [Int64.maxValue, Int64.minValue] [-1] := by
  intro new inside scratch
  have hn : create (fun _ => true) ⟨1,0,5⟩ .unlimited = .ok new := create_initial rfl .unlimited
  have hi : inside.Standard scratch := (standard_of_create hn Nat.one_pos).enclose 7
  obtain ⟨-,-,hne,hlt,-,hult,-⟩ :=
    comparison_words_correct hi (Nat.le_refl 5) [] Int64.minValue Int64.maxValue
  exact ⟨hn,hlt,hult,hne⟩

end Machine

end NandStack
