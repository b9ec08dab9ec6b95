import Mathlib.Logic.Function.Basic
import NandStack.Proofs.Machine.Pieces
import NandStack.Proofs.Program.Places

/-!
Layout: blanks and line breaks decide where the tokens of a text stand and nothing else. Texts with
the same literals spell the same program, or the same is wrong with the same one of their tokens.
-/

namespace NandStack

namespace Token

private theorem exists_moved {tokens others : List Token} (h : tokens.map literal = others.map literal)
    (hd : (tokens.map position).Nodup) : ∃ move, others = tokens.map (moved move) := by
  induction tokens generalizing others with
  | nil => exact ⟨id,List.map_eq_nil_iff.mp h.symm⟩
  | cons token rest ih =>
    obtain ⟨other,others,rfl,hl,hr⟩ := List.map_eq_cons_iff.mp h.symm
    obtain ⟨hn,hd⟩ := List.nodup_cons.mp hd
    obtain ⟨move,rfl⟩ := ih hr.symm hd
    refine ⟨Function.update move token.position other.position,?_⟩
    have ht : moved (Function.update move token.position other.position) token = other := by
      rw [moved,Function.update_self,← hl]
    rw [List.map_cons,ht]
    congr 1
    apply List.map_congr_left
    intro later hm
    have hp : later.position ≠ token.position := fun he => hn (he ▸ List.mem_map_of_mem hm)
    rw [moved,moved,Function.update_of_ne hp]

private theorem nodup_positions_scan (source : String) : ((scan source).map position).Nodup := by
  rw [List.Nodup,List.pairwise_map]
  exact (positions_scan source).imp Position.Before.ne

end Token

private theorem ParseError.moved_eq (move : Position → Position) (error : ParseError) :
    error.moved move = error.moved fun _ => move error.place := by
  cases error <;> rfl

namespace Program

private theorem ofTokens_moved_of_error (move : Position → Position) {tokens : List Token}
    {error : ParseError} (h : ofTokens tokens = .error error) :
    ofTokens (tokens.map (Token.moved move)) = .error (error.moved move) := by
  have ha : Reading.Alike move .start .start := ⟨.nil,rfl⟩
  exact ha.run h

private theorem ofTokens_moved_of_ok (move : Position → Position) {tokens : List Token} {program : Program}
    (h : ofTokens tokens = .ok program) :
    ofTokens (tokens.map (Token.moved move)) = .ok program := by
  rw [ofTokens_iff] at h ⊢
  rw [Token.map_terminal_moved,h]

end Program

namespace Machine

open Program (ofSource)

/-- Layout never matters: of two texts with the same literals either both spell one program, so that
no machine can tell them apart, or neither spells any, and what is wrong is the same, with tokens of
one index. -/
theorem layout_never_matters {first second : String}
    (h : (Token.scan first).map Token.literal = (Token.scan second).map Token.literal) :
    (∃ program, ofSource first = .ok program ∧ ofSource second = .ok program ∧
      ∀ machine : Machine, machine.evaluateSource first = machine.evaluateSource second) ∨
    ∃ (error : ParseError) (index : Nat) (token other : Token),
      (Token.scan first)[index]? = some token ∧ (Token.scan second)[index]? = some other ∧
      ofSource first = .error error ∧ error.place = token.position ∧
      ofSource second = .error (error.moved fun _ => other.position) := by
  obtain ⟨move,hm⟩ := Token.exists_moved h (Token.nodup_positions_scan first)
  cases hf : ofSource first with
  | ok program =>
    have hs : ofSource second = .ok program := by
      rw [ofSource,hm]
      exact Program.ofTokens_moved_of_ok move hf
    refine .inl ⟨program,rfl,hs,?_⟩
    intro machine
    rw [evaluateSource_of_ok machine hf,evaluateSource_of_ok machine hs]
  | error error =>
    obtain ⟨token,ht,hn⟩ := Program.names_of_ofTokens hf
    obtain ⟨index,hi⟩ := List.mem_iff_getElem?.mp ht
    refine .inr ⟨error,index,token,token.moved move,hi,?_,rfl,hn.place_eq,?_⟩
    · rw [hm,List.getElem?_map,hi]
      rfl
    · rw [ofSource,hm,Program.ofTokens_moved_of_error move hf,ParseError.moved_eq,hn.place_eq]
      rfl

/-- The `if` is not ended in either layout, and in both the stray terminator is the third token. -/
theorem layout_never_matters_misplaced :
    let first := "if 1 ;"
    let second := "\tif\r\n1\n\n ; "
    (Token.scan first).map Token.literal = (Token.scan second).map Token.literal ∧
      ofSource first = .error (.unexpectedToken ";" ⟨1, 6⟩) ∧
      ofSource second = .error (.unexpectedToken ";" ⟨4, 2⟩) ∧
      ∃ (error : ParseError) (index : Nat) (token other : Token),
        (Token.scan first)[index]? = some token ∧ (Token.scan second)[index]? = some other ∧
        ofSource first = .error error ∧ error.place = token.position ∧
        ofSource second = .error (error.moved fun _ => other.position) := by
  intro first second
  have hl : (Token.scan first).map Token.literal = (Token.scan second).map Token.literal := by decide
  have he : ofSource first = .error (.unexpectedToken ";" ⟨1, 6⟩) := by decide
  refine ⟨hl,he,by decide,(layout_never_matters hl).resolve_left ?_⟩
  rintro ⟨program,hp,-⟩
  rw [he] at hp
  cases hp

end Machine

end NandStack
