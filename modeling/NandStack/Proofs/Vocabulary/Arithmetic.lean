import NandStack.Proofs.Bits
import NandStack.Proofs.Vocabulary.Shuffles

/-!
Arithmetic and logic: what the words built from sums and complements compute. All arithmetic wraps at
64 bits, and so is exact in two's complement.
-/

namespace NandStack

namespace Vocabulary.Attains

variable {levels : Nat} {rest : Program} {post : Machine.Values → Prop}
  {stack returnStack : List Int64} {held x y : Int64}

theorem invert (h : ∀ held, Attains (levels + 1) rest ⟨~~~x :: stack,returnStack,held⟩ post) :
    Attains (levels + 1) (.call "invert" rest) ⟨x :: stack,returnStack,held⟩ post := by
  apply word rfl
  apply push
  apply nand
  rw [Int64.neg_one_and]
  exact nil (h held)

theorem negate (h : ∀ held, Attains (levels + 2) rest ⟨-x :: stack,returnStack,held⟩ post) :
    Attains (levels + 2) (.call "negate" rest) ⟨x :: stack,returnStack,held⟩ post := by
  apply word rfl
  apply invert
  intro held
  apply push
  apply add
  rw [Int64.add_comm,← Int64.neg_eq_not_add]
  exact nil (h held)

theorem minus (h : ∀ held, Attains (levels + 3) rest ⟨(x - y) :: stack,returnStack,held⟩ post) :
    Attains (levels + 3) (.call "-" rest) ⟨y :: x :: stack,returnStack,held⟩ post := by
  apply word rfl
  apply negate
  intro held
  apply add
  rw [Int64.add_comm,← Int64.sub_eq_add_neg]
  exact nil (h held)

theorem increment (h : ∀ held, Attains (levels + 1) rest ⟨(x + 1) :: stack,returnStack,held⟩ post) :
    Attains (levels + 1) (.call "1+" rest) ⟨x :: stack,returnStack,held⟩ post := by
  apply word rfl
  apply push
  apply add
  rw [Int64.add_comm]
  exact nil (h held)

theorem decrement (h : ∀ held, Attains (levels + 1) rest ⟨(x - 1) :: stack,returnStack,held⟩ post) :
    Attains (levels + 1) (.call "1-" rest) ⟨x :: stack,returnStack,held⟩ post := by
  apply word rfl
  apply push
  apply add
  rw [Int64.add_comm,← Int64.sub_eq_add_neg]
  exact nil (h held)

theorem twice (h : ∀ held, Attains (levels + 2) rest ⟨(2 * x) :: stack,returnStack,held⟩ post) :
    Attains (levels + 2) (.call "2*" rest) ⟨x :: stack,returnStack,held⟩ post := by
  apply word rfl
  apply dup
  intro held
  apply add
  rw [← Int64.two_mul]
  exact nil (h held)

theorem bitAnd (h : ∀ held, Attains (levels + 2) rest ⟨(x &&& y) :: stack,returnStack,held⟩ post) :
    Attains (levels + 2) (.call "and" rest) ⟨y :: x :: stack,returnStack,held⟩ post := by
  apply word rfl
  apply nand
  apply invert
  intro held
  rw [Int64.not_not,Int64.and_comm]
  exact nil (h held)

theorem bitOr (h : ∀ held, Attains (levels + 2) rest ⟨(x ||| y) :: stack,returnStack,held⟩ post) :
    Attains (levels + 2) (.call "or" rest) ⟨y :: x :: stack,returnStack,held⟩ post := by
  apply word rfl
  apply invert
  intro held
  apply swap
  intro held
  apply invert
  intro held
  apply nand
  rw [Bits.not_not_and_not]
  exact nil (h held)

/-- The common bits are subtracted twice, as twice the increment of their complement. -/
theorem bitXor (h : ∀ held, Attains (levels + 3) rest ⟨(x ^^^ y) :: stack,returnStack,held⟩ post) :
    Attains (levels + 3) (.call "xor" rest) ⟨y :: x :: stack,returnStack,held⟩ post := by
  have hx : ~~~(y &&& x) + 1 + (~~~(y &&& x) + 1) + y + x = x ^^^ y := by
    rw [Bits.xor_eq_sub,← Int64.neg_eq_not_add,Int64.and_comm y x]
    grind
  apply word rfl
  apply twoDup
  intro held
  apply nand
  apply increment
  intro held
  apply dup
  intro held
  apply add
  apply add
  apply add
  rw [hx]
  exact nil (h held)

end Vocabulary.Attains

namespace Machine

open Vocabulary.Attains

/-- The arithmetic and logic words are exact on all numbers, on every standard machine with five
levels left. -/
theorem arithmetic_words_exact {machine : Machine} {scratch : Fin machine.memory.size}
    (h : machine.Standard scratch) (hd : machine.depth + 5 ≤ machine.maxDepth)
    (below : List Int64) (x y : Int64) :
    machine.Leaves scratch "invert" (x :: below) (~~~x :: below) ∧
    machine.Leaves scratch "negate" (x :: below) (-x :: below) ∧
    machine.Leaves scratch "1+" (x :: below) ((x + 1) :: below) ∧
    machine.Leaves scratch "1-" (x :: below) ((x - 1) :: below) ∧
    machine.Leaves scratch "2*" (x :: below) (2 * x :: below) ∧
    machine.Leaves scratch "-" (y :: x :: below) ((x - y) :: below) ∧
    machine.Leaves scratch "and" (y :: x :: below) ((x &&& y) :: below) ∧
    machine.Leaves scratch "or" (y :: x :: below) ((x ||| y) :: below) ∧
    machine.Leaves scratch "xor" (y :: x :: below) ((x ^^^ y) :: below) := by
  refine ⟨?invert,?negate,?increment,?decrement,?twice,?minus,?bitAnd,?bitOr,?bitXor⟩
  case invert => exact leaves invert h hd
  case negate => exact leaves negate h hd
  case increment => exact leaves increment h hd
  case decrement => exact leaves decrement h hd
  case twice => exact leaves twice h hd
  case minus => exact leaves minus h hd
  case bitAnd => exact leaves bitAnd h hd
  case bitOr => exact leaves bitOr h hd
  case bitXor => exact leaves bitXor h hd

/-- On a new machine with a single cell, inside a loop, at both ends of the range. -/
theorem arithmetic_words_exact_wrapping :
    let new := initial ⟨#[0]⟩ .unlimited 5
    let inside : Machine := { new with scopes := new.scopes.enclose loopIndex 7 }
    let scratch : Fin inside.memory.size := ⟨0,Nat.one_pos⟩
    create (fun _ => true) ⟨1,0,5⟩ .unlimited = .ok new ∧
      inside.Leaves scratch "negate" [Int64.minValue] [Int64.minValue] ∧
      inside.Leaves scratch "-" [Int64.maxValue, Int64.minValue] [1] ∧
      inside.Leaves scratch "xor" [Int64.maxValue, Int64.minValue] [-1] := by
  intro new inside scratch
  have hn : create (fun _ => true) ⟨1,0,5⟩ .unlimited = .ok new := create_initial rfl .unlimited
  have hi : inside.Standard scratch := (standard_of_create hn Nat.one_pos).enclose 7
  obtain ⟨-,hneg,-,-,-,hsub,-,-,hxor⟩ :=
    arithmetic_words_exact hi (Nat.le_refl 5) [] Int64.minValue Int64.maxValue
  exact ⟨hn,hneg,hsub,hxor⟩

end Machine

end NandStack
