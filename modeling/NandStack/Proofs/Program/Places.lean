import NandStack.Proofs.Program.Viability
import NandStack.Proofs.Token.Places

/-!
Places of errors: an error names the place of one of the tokens, either of the token that is refused
or of the one that opened what is never ended.
-/

namespace NandStack

namespace ParseError

def place : ParseError → Position
  | unexpectedEnd _ opener => opener
  | unexpectedToken _ place => place
  | invalidName _ place => place

/-- The message of an error says its place. -/
theorem message_place (error : ParseError) :
    ∃ front rest, error.message = front ++ error.place.text ++ rest := by
  cases error with
  | unexpectedEnd expected opener => exact ⟨_,"",String.append_empty.symm⟩
  | unexpectedToken literal place => exact ⟨_,"",String.append_empty.symm⟩
  | invalidName literal place => exact ⟨_,_,rfl⟩

def literal? : ParseError → Option String
  | unexpectedEnd .. => none
  | unexpectedToken literal _ => some literal
  | invalidName literal _ => some literal

/-- The error names the place of the token, and no other literal. -/
structure Names (error : ParseError) (token : Token) : Prop where
  place_eq : error.place = token.position
  literal_eq : ∀ literal, error.literal? = some literal → literal = token.literal

end ParseError

namespace Program

namespace Reading

def openers (reading : Reading) : List Position :=
  (reading.awaiting.map Prod.snd).toList ++ reading.enclosing.map Frame.opener

private theorem openers_leave? {reading outer : Reading} {kind : Kind} (h : reading.leave? kind = some outer) :
    outer.openers ⊆ reading.openers := by
  obtain ⟨nodes,enclosing,awaiting⟩ := reading
  cases enclosing with
  | nil => cases h
  | cons frame enclosing =>
    simp only [leave?] at h
    -- A consequence that turns into an alternative keeps its opener, all else loses it.
    split at h <;> cases h <;> simp [openers]

private theorem openers_step {reading next : Reading} {token : Token} (h : reading.step token = .ok next) :
    next.openers ⊆ token.position :: reading.openers := by
  obtain ⟨nodes,enclosing,_ | ⟨named,opener⟩⟩ := reading
  · cases hk : token.kind with
    | integer | word | colon | variableKeyword | ifKeyword | doKeyword =>
      simp only [step,hk] at h
      cases h
      simp [openers,enter]
    | quote | semicolon | elseKeyword | thenKeyword | loopKeyword =>
      simp only [step,hk] at h
      split at h
      · rename_i hl
        cases h
        exact List.subset_cons_of_subset _ (openers_leave? hl)
      · cases h
  · simp only [step] at h
    split at h
    · cases h
      cases named <;> simp [openers,receiveName,enter]
    · cases h

private theorem openers_finish {reading : Reading} {error : ParseError} (h : reading.finish = .error error) :
    error.place ∈ reading.openers ∧ error.literal? = none := by
  obtain ⟨nodes,enclosing,awaiting⟩ := reading
  unfold finish at h
  split at h
  · rename_i ha
    cases h
    cases ha
    exact ⟨List.mem_cons_self,rfl⟩
  · rename_i ha he
    cases h
    cases ha
    cases he
    exact ⟨List.mem_cons_self,rfl⟩
  · cases h

private theorem names_of_run {reading : Reading} {tokens : List Token} {error : ParseError}
    (h : reading.run tokens = .error error) :
    (∃ token ∈ tokens, error.Names token) ∨ (error.place ∈ reading.openers ∧ error.literal? = none) := by
  induction tokens generalizing reading with
  | nil => exact .inr (openers_finish h)
  | cons token rest ih =>
    rw [run] at h
    split at h
    · rename_i next hs
      rcases ih h with ⟨other,ho,hn⟩ | ⟨ho,hn⟩
      · exact .inl ⟨other,List.mem_cons_of_mem _ ho,hn⟩
      · rcases List.mem_cons.mp (openers_step hs ho) with hp | hp
        · refine .inl ⟨token,List.mem_cons_self,hp,?_⟩
          intro literal hl
          rw [hn] at hl
          cases hl
        · exact .inr ⟨hp,hn⟩
    · rename_i reason hs
      cases h
      refine .inl ⟨token,List.mem_cons_self,?_,?_⟩
      · rw [error_of_step hs]
        split <;> rfl
      · intro literal hl
        rw [error_of_step hs] at hl
        split at hl <;> cases hl <;> rfl

end Reading

theorem names_of_ofTokens {tokens : List Token} {error : ParseError}
    (h : ofTokens tokens = .error error) : ∃ token ∈ tokens, error.Names token := by
  rcases Reading.names_of_run h with hn | ⟨ho,-⟩
  · exact hn
  · cases ho

/-- What is wrong with a text of one line is said with the first line and with the column of a
character, which the named literal begins with if there is one. -/
theorem place_of_line {line : String} {error : ParseError} (hl : '\n' ∉ line.toList.dropLast)
    (h : ofSource line = .error error) :
    ∃ front rest, line.toList = front ++ rest ∧ rest ≠ [] ∧ error.place = ⟨1, front.length + 1⟩ ∧
      ∀ literal, error.literal? = some literal → literal.toList <+: rest := by
  obtain ⟨token,ht,hn⟩ := names_of_ofTokens h
  obtain ⟨front,rest,hs,hr,hp,he⟩ := Token.standsIn_line hl ht
  refine ⟨front,rest,hs,hr,hn.place_eq.trans he,?_⟩
  intro literal hq
  rw [hn.literal_eq literal hq]
  exact hp

end Program

end NandStack
