import NandStack.Program.OfTokens
import NandStack.Proofs.Token.Kinds

/-!
What the grammar sees: a token is its kind and, if it is a word, its characters. The terminals of
a program are the one way to write it down, whatever the places and the spelling of integers.
-/

namespace NandStack

/-- A word with its characters, or a token of which only the kind matters. -/
inductive Terminal where
  | word (name : String)
  | mark (kind : Kind)
  deriving DecidableEq, Repr

def Terminal.ofLiteral (literal : String) : Terminal :=
  match Kind.ofLiteral literal with
  | .word => .word literal
  | kind => .mark kind

def Token.terminal (token : Token) : Terminal :=
  .ofLiteral token.literal

theorem Terminal.ofLiteral_of_word {literal : String} (h : Kind.ofLiteral literal = .word) :
    ofLiteral literal = .word literal := by
  simp only [ofLiteral,h]

theorem Terminal.ofLiteral_of_ne_word {literal : String} {kind : Kind}
    (h : Kind.ofLiteral literal = kind) (hk : kind ≠ .word) : ofLiteral literal = .mark kind := by
  subst h
  unfold ofLiteral
  split
  · contradiction
  · rfl

theorem Token.terminal_eq_word_iff (token : Token) (name : String) :
    token.terminal = .word name ↔ token.kind = .word ∧ token.literal = name := by
  constructor
  · intro h
    by_cases hk : token.kind = .word
    · rw [terminal,Terminal.ofLiteral_of_word hk] at h
      exact ⟨hk,Terminal.word.inj h⟩
    · rw [terminal,Terminal.ofLiteral_of_ne_word rfl hk] at h
      cases h
  · rintro ⟨hk,rfl⟩
    exact Terminal.ofLiteral_of_word hk

theorem Token.terminal_eq_mark_iff (token : Token) (kind : Kind) :
    token.terminal = .mark kind ↔ token.kind = kind ∧ kind ≠ .word := by
  constructor
  · intro h
    by_cases hk : token.kind = .word
    · rw [terminal,Terminal.ofLiteral_of_word hk] at h
      cases h
    · rw [terminal,Terminal.ofLiteral_of_ne_word rfl hk] at h
      cases Terminal.mark.inj h
      exact ⟨rfl,hk⟩
  · rintro ⟨hk,hw⟩
    exact Terminal.ofLiteral_of_ne_word hk hw

/-- Two tokens that differ at most in their places and, when both are integers of one value, in
their spelling. -/
def Token.Interchangeable (first second : Token) : Prop :=
  first.literal = second.literal ∨
    ∃ value, first.kind = .integer value ∧ second.kind = .integer value

theorem Token.interchangeable_iff (first second : Token) :
    first.Interchangeable second ↔ first.terminal = second.terminal := by
  constructor
  · rintro (h | ⟨value,hf,hs⟩)
    · rw [terminal,terminal,h]
    · rw [(first.terminal_eq_mark_iff _).mpr ⟨hf,by simp⟩,
        (second.terminal_eq_mark_iff _).mpr ⟨hs,by simp⟩]
  · intro h
    by_cases hw : second.kind = .word
    · rw [(second.terminal_eq_word_iff _).mpr ⟨hw,rfl⟩] at h
      exact .inl ((first.terminal_eq_word_iff _).mp h).2
    · rw [(second.terminal_eq_mark_iff _).mpr ⟨rfl,hw⟩] at h
      have hk := ((first.terminal_eq_mark_iff _).mp h).1
      cases hr : second.kind.reserved? with
      | some reserved =>
        have hf : first.kind.reserved? = some reserved := by rw [hk,hr]
        exact .inl ((Kind.eq_of_reserved hf).trans (Kind.eq_of_reserved hr).symm)
      | none =>
        cases hs : second.kind with
        | integer value => exact .inr ⟨value,hk.trans hs,hs⟩
        | word => exact absurd hs hw
        | _ =>
          rw [hs] at hr
          cases hr

namespace Program

/-- The terminals that write a program down, openers and terminators included. -/
def terminals : Program → List Terminal
  | nil => []
  | push value rest => .mark (.integer value) :: rest.terminals
  | call name rest => .word name :: rest.terminals
  | define name body rest =>
    .mark .colon :: .word name :: (body.terminals ++ .mark .semicolon :: rest.terminals)
  | declare name rest => .mark .variableKeyword :: .word name :: rest.terminals
  | ifThen consequence rest =>
    .mark .ifKeyword :: (consequence.terminals ++ .mark .thenKeyword :: rest.terminals)
  | ifElse consequence alternative rest =>
    .mark .ifKeyword :: (consequence.terminals ++
      .mark .elseKeyword :: (alternative.terminals ++ .mark .thenKeyword :: rest.terminals))
  | loop body rest => .mark .doKeyword :: (body.terminals ++ .mark .loopKeyword :: rest.terminals)

@[simp] theorem terminals_reverse_nil : nil.reverse.terminals = [] := rfl

private theorem append_nil (program : Program) : program.append nil = program := by
  induction program <;> simp_all [append]

theorem terminals_append (first second : Program) :
    (first.append second).terminals = first.terminals ++ second.terminals := by
  induction first <;> simp_all [append,terminals]

private theorem reverseOnto_reverseOnto (first second after : Program) :
    (first.reverseOnto second).reverseOnto after = second.reverseOnto (first.append after) := by
  induction first generalizing second with
  | nil => rfl
  | push _ _ ih | call _ _ ih | define _ _ _ _ ih | declare _ _ ih | ifThen _ _ _ ih
  | ifElse _ _ _ _ _ ih | loop _ _ _ ih =>
    rw [reverseOnto,ih]
    rfl

theorem reverse_reverseOnto (program after : Program) :
    (program.reverseOnto after).reverse = after.reverseOnto program := by
  rw [reverse,reverseOnto_reverseOnto,append_nil]

theorem reverse_reverse (program : Program) : program.reverse.reverse = program :=
  reverse_reverseOnto program nil

private theorem reverseOnto_eq_append (program after : Program) :
    program.reverseOnto after = program.reverse.append after := by
  have h := reverseOnto_reverseOnto program.reverse nil after
  change program.reverse.reverse.reverseOnto after = _ at h
  rw [reverse_reverse] at h
  exact h

private theorem terminals_reverseOnto (program after : Program) :
    (program.reverseOnto after).terminals = program.reverse.terminals ++ after.terminals := by
  rw [reverseOnto_eq_append,terminals_append]

/-- A node put before a body that is held last node first comes after its terminals. The
hypothesis holds of every constructor by unfolding. -/
theorem terminals_reverse_node (node : Program → Program)
    (hn : ∀ before, (node before).reverse = before.reverseOnto (node nil)) (before : Program) :
    (node before).reverse.terminals = before.reverse.terminals ++ (node nil).terminals := by
  rw [hn,terminals_reverseOnto]

end Program

end NandStack
