import Mathlib.Data.Nat.Digits.Defs
import NandStack.Proofs.Token.Kinds

/-!
Numerals: runs of ASCII digits with or without a minus sign before them, and the numbers they stand
for. The integers among the literals are exactly the numerals whose number fits into 64 bits with a
sign, and every other numeral is a word.
-/

namespace NandStack

/-- Digits, the highest first, with or without a minus sign before them. There may be zeros in front,
and zero may have the sign as well. -/
structure Numeral where
  negative : Bool
  digits : List (Fin 10)
  digits_ne_nil : digits ≠ []

namespace Numeral

def characters (digits : List (Fin 10)) : List Char :=
  digits.map fun digit => digit.val.digitChar

/-- The sum of the digits, each times ten to the number of digits behind it. -/
def magnitude (digits : List (Fin 10)) : Nat :=
  Nat.ofDigits 10 (digits.map Fin.val).reverse

def text (numeral : Numeral) : String :=
  String.ofList ((if numeral.negative then ['-'] else []) ++ characters numeral.digits)

def value (numeral : Numeral) : Int :=
  if numeral.negative then -magnitude numeral.digits else magnitude numeral.digits

def Fits (numeral : Numeral) : Prop :=
  -2 ^ 63 ≤ numeral.value ∧ numeral.value ≤ 2 ^ 63 - 1

instance (numeral : Numeral) : Decidable numeral.Fits :=
  inferInstanceAs (Decidable (_ ∧ _))

private theorem all_isDigit_characters (digits : List (Fin 10)) :
    (characters digits).all Char.isDigit := by
  simp [characters,Nat.isDigit_digitChar]

private theorem exists_digitChar {character : Char} (h : character.isDigit) :
    ∃ digit : Fin 10, digit.val.digitChar = character := by
  obtain ⟨hl,hu⟩ := Char.isDigit_iff_toNat.mp h
  change 48 ≤ character.toNat at hl
  change character.toNat ≤ 57 at hu
  refine ⟨⟨character.toNat - 48,by omega⟩,?_⟩
  apply Char.toNat_inj.mp
  rw [Nat.toNat_digitChar_of_lt_ten (by omega)]
  exact Nat.add_sub_cancel' hl

private theorem exists_characters {run : List Char} (h : run.all Char.isDigit) :
    ∃ digits, characters digits = run := by
  induction run with
  | nil => exact ⟨[],rfl⟩
  | cons character rest ih =>
    obtain ⟨hc,hr⟩ := Bool.and_eq_true_iff.mp h
    obtain ⟨digit,rfl⟩ := exists_digitChar hc
    obtain ⟨digits,rfl⟩ := ih hr
    exact ⟨digit :: digits,rfl⟩

private theorem ofDigitChars_characters (digits : List (Fin 10)) :
    Nat.ofDigitChars 10 (characters digits) 0 = magnitude digits := by
  induction digits with
  | nil => rfl
  | cons digit rest ih =>
    have hl : (characters rest).length = (rest.map Fin.val).length := by
      rw [characters,List.length_map,List.length_map]
    have hm : magnitude (digit :: rest) =
        magnitude rest + 10 ^ (rest.map Fin.val).length * digit.val :=
      Nat.ofDigits_reverse_cons _ _
    have hc : characters (digit :: rest) = Nat.digitChar digit :: characters rest := rfl
    rw [hc,Nat.ofDigitChars_cons_digitChar_of_lt_ten digit.isLt,Nat.ofDigitChars_eq_ofDigitChars_zero,
      ih,hl,hm,Nat.mul_zero,Nat.zero_add,Nat.add_comm]

private theorem natural?_characters {digits : List (Fin 10)} (h : digits ≠ []) :
    Decimal.natural? (characters digits) = some (magnitude digits) := by
  have hn : characters digits ≠ [] := fun he => h (List.map_eq_nil_iff.mp he)
  rw [Decimal.natural?,if_pos ⟨hn,all_isDigit_characters digits⟩,ofDigitChars_characters]

private theorem exists_of_natural? {run : List Char} (h : Decimal.natural? run ≠ none) :
    ∃ digits, digits ≠ [] ∧ characters digits = run := by
  rw [Decimal.natural?] at h
  split at h
  · rename_i hd
    obtain ⟨digits,rfl⟩ := exists_characters hd.2
    refine ⟨digits,?_,rfl⟩
    rintro rfl
    exact hd.1 rfl
  · exact absurd rfl h

private theorem integer?_text (numeral : Numeral) :
    Decimal.integer? numeral.text.toList = some numeral.value := by
  have hn := natural?_characters numeral.digits_ne_nil
  rw [text,String.toList_ofList,value]
  split
  · rw [List.singleton_append,Decimal.integer?,hn]
    rfl
  · rw [List.nil_append,Decimal.integer?_of_natural? hn]

private theorem exists_of_integer? {run : List Char} {number : Int}
    (h : Decimal.integer? run = some number) :
    ∃ numeral : Numeral, numeral.text = String.ofList run := by
  unfold Decimal.integer? at h
  split at h
  · rename_i rest
    have hn : Decimal.natural? rest ≠ none := by
      intro hn
      rw [hn] at h
      cases h
    obtain ⟨digits,hd,rfl⟩ := exists_of_natural? hn
    exact ⟨⟨true,digits,hd⟩,rfl⟩
  · have hn : Decimal.natural? run ≠ none := by
      intro hn
      rw [hn] at h
      cases h
    obtain ⟨digits,hd,rfl⟩ := exists_of_natural? hn
    exact ⟨⟨false,digits,hd⟩,rfl⟩

private theorem read?_text (numeral : Numeral) :
    Decimal.read? numeral.text =
      if numeral.Fits then some (Int64.ofInt numeral.value) else none := by
  rw [Decimal.read?,integer?_text]
  rfl

private theorem exists_of_read? {literal : String} {value : Int64} (h : Decimal.read? literal = some value) :
    ∃ numeral : Numeral, numeral.text = literal := by
  obtain ⟨number,hn,-⟩ := Option.bind_eq_some_iff.mp h
  obtain ⟨numeral,ht⟩ := exists_of_integer? hn
  exact ⟨numeral,ht.trans String.ofList_toList⟩

private theorem Fits.toInt_ofInt {numeral : Numeral} (h : numeral.Fits) :
    (Int64.ofInt numeral.value).toInt = numeral.value := by
  obtain ⟨hl,hu⟩ := h
  exact Int64.toInt_ofInt_of_le hl (by omega)

theorem read?_eq_some_iff {literal : String} {value : Int64} :
    Decimal.read? literal = some value ↔
      ∃ numeral : Numeral, numeral.text = literal ∧ numeral.Fits ∧ numeral.value = value.toInt := by
  constructor
  · intro h
    obtain ⟨numeral,rfl⟩ := exists_of_read? h
    rw [read?_text] at h
    split at h
    · rename_i hf
      cases h
      exact ⟨numeral,rfl,hf,hf.toInt_ofInt.symm⟩
    · cases h
  · rintro ⟨numeral,rfl,hf,hv⟩
    rw [read?_text,if_pos hf,hv,Int64.ofInt_toInt]

private theorem text_ne_reserved (numeral : Numeral) (kind : Kind) :
    kind.reserved? ≠ some numeral.text := by
  intro h
  have hi := numeral.integer?_text
  cases kind with
  | word => cases h
  | integer => cases h
  | _ =>
    rw [← Option.some.inj h] at hi
    cases hi

private theorem ofLiteral_text (numeral : Numeral) :
    Kind.ofLiteral numeral.text =
      if numeral.Fits then .integer (.ofInt numeral.value) else .word := by
  have hr := numeral.read?_text
  split
  · rename_i hf
    rw [if_pos hf] at hr
    exact Kind.ofLiteral_eq_integer_iff.mpr hr
  · rename_i hf
    rw [if_neg hf] at hr
    exact Kind.ofLiteral_eq_word_iff.mpr ⟨numeral.text_ne_reserved,hr⟩

/-- The integers are the numerals whose number fits, and have that number as their value. The words
are the other literals that are not reserved, among them every numeral that does not fit, however
long. What is written for a value is an integer of that value. -/
theorem integers_are_fitting_numerals :
    (∀ literal value, Kind.ofLiteral literal = .integer value ↔
      ∃ numeral : Numeral, numeral.text = literal ∧ numeral.Fits ∧ numeral.value = value.toInt) ∧
    (∀ literal, Kind.ofLiteral literal = .word ↔
      (∀ kind : Kind, kind.reserved? ≠ some literal) ∧
        ¬ ∃ numeral : Numeral, numeral.text = literal ∧ numeral.Fits) ∧
    (∀ numeral : Numeral, Kind.ofLiteral numeral.text =
      if numeral.Fits then .integer (.ofInt numeral.value) else .word) ∧
    ∀ value, Kind.ofLiteral (Decimal.write value) = .integer value := by
  refine ⟨?_,?_,ofLiteral_text,Kind.ofLiteral_write⟩
  · intro literal value
    rw [Kind.ofLiteral_eq_integer_iff,read?_eq_some_iff]
  · intro literal
    rw [Kind.ofLiteral_eq_word_iff,Option.eq_none_iff_forall_ne_some]
    refine and_congr_right fun _ => ⟨?_,?_⟩
    · rintro hr ⟨numeral,rfl,hf⟩
      exact hr _ (numeral.read?_text.trans (if_pos hf))
    · intro hn value hr
      obtain ⟨numeral,ht,hf,-⟩ := read?_eq_some_iff.mp hr
      exact hn ⟨numeral,ht,hf⟩

/-- Zeros in front do not count, the least value has no positive counterpart, and the digits of other
scripts are not digits here. -/
example : Kind.ofLiteral "-009223372036854775808" = .integer Int64.minValue ∧
    Kind.ofLiteral "9223372036854775808" = .word ∧ Kind.ofLiteral "٣" = .word := by decide

end Numeral

end NandStack
