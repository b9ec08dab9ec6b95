import NandStack.Proofs.Vocabulary.Rules

/-!
Shuffles: the words that only move, copy and drop values. Each of them goes through the return stack
and the scratch cell, and leaves the one as it was and in the other no value that may be relied on.
-/

namespace NandStack

namespace Vocabulary.Attains

variable {levels : Nat} {rest : Program} {post : Machine.Values → Prop}
  {stack returnStack : List Int64} {held a b c : Int64}

theorem swap (h : ∀ held, Attains (levels + 1) rest ⟨a :: b :: stack,returnStack,held⟩ post) :
    Attains (levels + 1) (.call "swap" rest) ⟨b :: a :: stack,returnStack,held⟩ post := by
  apply word rfl
  apply toReturn
  apply stash
  apply fromReturn
  apply retrieve
  exact nil (h a)

theorem copySecond
    (h : ∀ held, Attains (levels + 1) rest ⟨a :: b :: a :: stack,returnStack,held⟩ post) :
    Attains (levels + 1) (.call "over" rest) ⟨b :: a :: stack,returnStack,held⟩ post := by
  apply word rfl
  apply toReturn
  apply stash
  apply retrieve
  apply fromReturn
  apply retrieve
  exact nil (h a)

theorem rot
    (h : ∀ held, Attains (levels + 2) rest ⟨a :: c :: b :: stack,returnStack,held⟩ post) :
    Attains (levels + 2) (.call "rot" rest) ⟨c :: b :: a :: stack,returnStack,held⟩ post := by
  apply word rfl
  apply toReturn
  apply swap
  intro held
  apply fromReturn
  apply swap
  intro held
  exact nil (h held)

/-- The value that is there twice is in the scratch cell as well. -/
theorem dup_held (h : Attains (levels + 1) rest ⟨a :: a :: stack,returnStack,a⟩ post) :
    Attains (levels + 1) (.call "dup" rest) ⟨a :: stack,returnStack,held⟩ post := by
  apply word rfl
  apply stash
  apply retrieve
  apply retrieve
  exact nil h

theorem dup (h : ∀ held, Attains (levels + 1) rest ⟨a :: a :: stack,returnStack,held⟩ post) :
    Attains (levels + 1) (.call "dup" rest) ⟨a :: stack,returnStack,held⟩ post :=
  dup_held (h a)

theorem twoDup
    (h : ∀ held, Attains (levels + 2) rest ⟨b :: a :: b :: a :: stack,returnStack,held⟩ post) :
    Attains (levels + 2) (.call "2dup" rest) ⟨b :: a :: stack,returnStack,held⟩ post := by
  apply word rfl
  apply copySecond
  intro held
  apply copySecond
  intro held
  exact nil (h held)

/-- A zero is dropped, and any other value is there twice. -/
theorem dupNonzero
    (h : ∀ held, Attains (levels + 1) rest
      ⟨if a = 0 then stack else a :: a :: stack,returnStack,held⟩ post) :
    Attains (levels + 1) (.call "?dup" rest) ⟨a :: stack,returnStack,held⟩ post := by
  apply word rfl
  apply stash
  apply retrieve
  apply ifThen
  · intro ha
    rw [if_neg ha] at h
    apply retrieve
    apply retrieve
    exact nil (h a)
  · intro ha
    rw [if_pos ha] at h
    exact nil (h a)

theorem nip (h : ∀ held, Attains (levels + 1) rest ⟨b :: stack,returnStack,held⟩ post) :
    Attains (levels + 1) (.call "nip" rest) ⟨b :: a :: stack,returnStack,held⟩ post := by
  apply word rfl
  apply toReturn
  apply stash
  apply fromReturn
  exact nil (h a)

end Vocabulary.Attains

namespace Machine

open Vocabulary.Attains

/-- The stack words permute, copy and drop exactly their operands on every standard machine with two
levels left. -/
theorem stack_words_permute {machine : Machine} {scratch : Fin machine.memory.size}
    (h : machine.Standard scratch) (hd : machine.depth + 2 ≤ machine.maxDepth)
    (below : List Int64) (a b c : Int64) :
    machine.Leaves scratch "swap" (b :: a :: below) (a :: b :: below) ∧
    machine.Leaves scratch "over" (b :: a :: below) (a :: b :: a :: below) ∧
    machine.Leaves scratch "rot" (c :: b :: a :: below) (a :: c :: b :: below) ∧
    machine.Leaves scratch "dup" (a :: below) (a :: a :: below) ∧
    machine.Leaves scratch "2dup" (b :: a :: below) (b :: a :: b :: a :: below) ∧
    machine.Leaves scratch "nip" (b :: a :: below) (b :: below) ∧
    machine.Leaves scratch "?dup" (a :: below) (if a = 0 then below else a :: a :: below) := by
  refine ⟨?swap,?copySecond,?rot,?dup,?twoDup,?nip,?dupNonzero⟩
  case swap => exact leaves swap h hd
  case copySecond => exact leaves copySecond h hd
  case rot => exact leaves rot h hd
  case dup => exact leaves dup h hd
  case twoDup => exact leaves twoDup h hd
  case nip => exact leaves nip h hd
  case dupNonzero => exact leaves dupNonzero h hd

/-- Inside a loop, with the scratch cell moved to the second of two cells. -/
theorem stack_words_permute_redeclared :
    let new := initial ⟨#[0, 0]⟩ .unlimited 2
    let inside : Machine := { new.declare "temp" with scopes := new.scopes.enclose loopIndex 7 }
    let scratch : Fin inside.memory.size := ⟨1,Nat.one_lt_two⟩
    create (fun _ => true) ⟨2,0,2⟩ .unlimited = .ok new ∧
      inside.Leaves scratch "rot" [3, 2, 1] [1, 3, 2] ∧
      inside.Leaves scratch "?dup" [1] [1, 1] := by
  intro new inside scratch
  have hn : create (fun _ => true) ⟨2,0,2⟩ .unlimited = .ok new := create_initial rfl .unlimited
  have hs : new.Standard ⟨0,Nat.two_pos⟩ := standard_of_create hn Nat.two_pos
  have hi : inside.Standard scratch := (hs.redeclare Nat.one_lt_two (by decide)).enclose 7
  obtain ⟨-,-,hr,-,-,-,hd⟩ := stack_words_permute hi (Nat.le_refl 2) [] 1 2 3
  exact ⟨hn,hr,hd⟩

end Machine

end NandStack
