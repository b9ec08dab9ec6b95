import NandStack.Proofs.Decimal
import NandStack.Token

/-!
Kinds: what is read as a value is an integer, each reserved kind has one literal, and a literal that
is neither of the two is a word.
-/

namespace NandStack.Kind

/-- The only literal of a reserved kind. Words and integers have many. -/
def reserved? : Kind → Option String
  | .word => none
  | .integer _ => none
  | .quote => some "\""
  | .colon => some ":"
  | .semicolon => some ";"
  | .ifKeyword => some "if"
  | .elseKeyword => some "else"
  | .thenKeyword => some "then"
  | .doKeyword => some "do"
  | .loopKeyword => some "loop"
  | .variableKeyword => some "variable"

theorem eq_of_reserved {literal reserved : String}
    (h : (ofLiteral literal).reserved? = some reserved) : literal = reserved := by
  unfold ofLiteral at h
  split at h
  · cases h
  · split at h <;> cases h <;> rfl

theorem ofLiteral_of_reserved {kind : Kind} {literal : String}
    (h : kind.reserved? = some literal) : ofLiteral literal = kind := by
  cases kind <;> cases h <;> rfl

theorem ofLiteral_eq_integer_iff {literal : String} {value : Int64} :
    ofLiteral literal = .integer value ↔ Decimal.read? literal = some value := by
  unfold ofLiteral
  split
  · rename_i read hr
    rw [hr,Option.some.injEq,Kind.integer.injEq]
  · rename_i hr
    rw [hr]
    split <;> simp

/-- The numeral of a value is an integer of that value. -/
theorem ofLiteral_write (value : Int64) : ofLiteral (Decimal.write value) = .integer value :=
  ofLiteral_eq_integer_iff.mpr (Decimal.read?_write value)

theorem ofLiteral_eq_word_iff {literal : String} :
    ofLiteral literal = .word ↔
      (∀ kind : Kind, kind.reserved? ≠ some literal) ∧ Decimal.read? literal = none := by
  constructor
  · intro h
    constructor
    · intro kind hk
      rw [ofLiteral_of_reserved hk] at h
      rw [h] at hk
      cases hk
    · cases hr : Decimal.read? literal with
      | none => rfl
      | some value =>
        rw [ofLiteral_eq_integer_iff.mpr hr] at h
        cases h
  · rintro ⟨hn,hr⟩
    cases hs : (ofLiteral literal).reserved? with
    | some reserved =>
      rw [← eq_of_reserved hs] at hs
      exact absurd hs (hn (ofLiteral literal))
    | none =>
      cases hk : ofLiteral literal with
      | word => rfl
      | integer value =>
        rw [ofLiteral_eq_integer_iff.mp hk] at hr
        cases hr
      | _ =>
        rw [hk] at hs
        cases hs

end NandStack.Kind
