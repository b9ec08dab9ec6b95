import Mathlib.Data.List.Basic
import NandStack.Proofs.Program.Terminals

/-!
Viability: tokens are viable as long as more tokens can complete them to a program. A reading that
has refused nothing so far can always be completed, so the first refused token is the one with
which viability is lost, and a list that ends too early is viable still.
-/

namespace NandStack

/-- Every kind of token is written somehow. -/
theorem Kind.exists_token (kind : Kind) : ∃ token : Token, token.kind = kind := by
  cases kind with
  | word => exact ⟨⟨"x", .start⟩,by decide⟩
  | integer value => exact ⟨⟨Decimal.write value, .start⟩,ofLiteral_write value⟩
  | quote | colon | semicolon | ifKeyword | elseKeyword | thenKeyword | doKeyword | loopKeyword
  | variableKeyword => exact ⟨⟨_, .start⟩,ofLiteral_of_reserved rfl⟩

namespace Program

def Accepted (tokens : List Token) : Prop :=
  ∃ program, ofTokens tokens = .ok program

/-- Some list that begins with the tokens spells a program. -/
def Viable (tokens : List Token) : Prop :=
  ∃ rest, Accepted (tokens ++ rest)

private theorem Viable.of_append {front rest : List Token} (h : Viable (front ++ rest)) : Viable front := by
  obtain ⟨more,h⟩ := h
  exact ⟨rest ++ more,List.append_assoc front rest more ▸ h⟩

def opensName (token : Token) : Bool :=
  token.kind = .colon || token.kind = .variableKeyword

/-- The last of the tokens requires a name behind it. As long as the tokens are viable, the last one
is no name itself if it is of such a kind. -/
def awaitsName (tokens : List Token) : Bool :=
  tokens.getLast?.any opensName

namespace Reading

inductive Takes : Reading → List Token → Reading → Prop where
  | nil (reading : Reading) : Takes reading [] reading
  | cons {reading next last : Reading} {token : Token} {rest : List Token}
    (hs : reading.step token = .ok next) (ht : Takes next rest last) :
    Takes reading (token :: rest) last

theorem Takes.run {reading last : Reading} {front : List Token} (h : Takes reading front last)
    (rest : List Token) : reading.run (front ++ rest) = last.run rest := by
  induction h with
  | nil => rfl
  | cons hs _ ih =>
    rw [List.cons_append,Reading.run,hs]
    exact ih

/-- Either all tokens are taken, or there is a first one that is refused. -/
theorem takes_or_refuses (reading : Reading) (tokens : List Token) :
    (∃ last, Takes reading tokens last) ∨
      ∃ front token rest last error, tokens = front ++ token :: rest ∧
        Takes reading front last ∧ last.step token = .error error := by
  induction tokens generalizing reading with
  | nil => exact .inl ⟨reading,.nil reading⟩
  | cons token rest ih =>
    cases hs : reading.step token with
    | error error => exact .inr ⟨[],token,rest,reading,error,rfl,.nil reading,hs⟩
    | ok next =>
      rcases ih next with ⟨last,ht⟩ | ⟨front,refused,after,last,error,rfl,ht,he⟩
      · exact .inl ⟨last,.cons hs ht⟩
      · exact .inr ⟨token :: front,refused,after,last,error,rfl,.cons hs ht,he⟩

/-- The terminator of the innermost open construct always ends it. -/
theorem step_terminator (nodes : Program) (frame : Frame) (enclosing : List Frame) {token : Token}
    (hk : token.kind = frame.construct.terminator) :
    ∃ outer, step ⟨nodes, frame :: enclosing, none⟩ token = .ok ⟨outer, enclosing, none⟩ := by
  obtain ⟨construct,opener,before⟩ := frame
  cases construct with
  | definition | consequence | alternative | loop =>
    simp only [step,hk,Construct.terminator,leave?]
    exact ⟨_,rfl⟩

private theorem completes_enclosing (nodes : Program) (enclosing : List Frame) :
    ∃ rest program, run ⟨nodes, enclosing, none⟩ rest = .ok program := by
  induction enclosing generalizing nodes with
  | nil => exact ⟨[],nodes.reverse,rfl⟩
  | cons frame enclosing ih =>
    obtain ⟨token,hk⟩ := frame.construct.terminator.exists_token
    obtain ⟨outer,hs⟩ := step_terminator nodes frame enclosing hk
    obtain ⟨rest,program,hr⟩ := ih outer
    refine ⟨token :: rest,program,?_⟩
    rw [run,hs]
    exact hr

private theorem completes (reading : Reading) : ∃ rest program, reading.run rest = .ok program := by
  obtain ⟨nodes,enclosing,_ | ⟨named,opener⟩⟩ := reading
  · exact completes_enclosing nodes enclosing
  · obtain ⟨token,hk⟩ := Kind.word.exists_token
    have hr : ∃ rest program, run (receiveName ⟨nodes,enclosing,some (named,opener)⟩ named opener
        token.literal) rest = .ok program := by
      cases named <;> exact completes_enclosing _ _
    obtain ⟨rest,program,hr⟩ := hr
    refine ⟨token :: rest,program,?_⟩
    simp only [run,step,hk]
    exact hr

private theorem leave?_awaiting {nodes : Program} {enclosing : List Frame} {kind : Kind} {outer : Reading}
    (h : leave? ⟨nodes, enclosing, none⟩ kind = some outer) : outer.awaiting = none := by
  cases enclosing with
  | nil => cases h
  | cons frame enclosing =>
    simp only [leave?] at h
    split at h <;> cases h <;> rfl

private theorem isSome_awaiting_of_step {reading next : Reading} {token : Token}
    (h : reading.step token = .ok next) : next.awaiting.isSome = opensName token := by
  obtain ⟨nodes,enclosing,_ | ⟨named,opener⟩⟩ := reading
  · unfold opensName
    cases hk : token.kind with
    | integer | word | colon | variableKeyword | ifKeyword | doKeyword =>
      simp only [step,hk] at h
      cases h
      rfl
    | quote | semicolon | elseKeyword | thenKeyword | loopKeyword =>
      simp only [step,hk] at h
      split at h
      · rename_i hl
        cases h
        rw [leave?_awaiting hl]
        rfl
      · cases h
  · simp only [step] at h
    split at h
    · rename_i hk
      cases h
      unfold opensName
      rw [hk]
      cases named <;> rfl
    · cases h

private theorem Takes.isSome_awaiting {reading last : Reading} {tokens : List Token}
    (h : Takes reading tokens last) :
    last.awaiting.isSome = (tokens.getLast?.map opensName).getD reading.awaiting.isSome := by
  induction h with
  | nil => rfl
  | cons hs ht ih =>
    rename_i rest
    rw [ih,isSome_awaiting_of_step hs,List.getLast?_cons]
    cases rest.getLast? <;> rfl

theorem Takes.awaitsName {last : Reading} {tokens : List Token} (h : Takes .start tokens last) :
    last.awaiting.isSome = Program.awaitsName tokens := by
  rw [h.isSome_awaiting]
  unfold Program.awaitsName
  cases tokens.getLast? <;> rfl

/-- A refused token is named with its place; what is said of it depends on what is awaited. -/
theorem error_of_step {reading : Reading} {token : Token} {error : ParseError}
    (h : reading.step token = .error error) :
    error = if reading.awaiting.isSome then .invalidName token.literal token.position
      else .unexpectedToken token.literal token.position := by
  obtain ⟨nodes,enclosing,_ | ⟨named,opener⟩⟩ := reading
  · cases hk : token.kind with
    | integer | word | colon | variableKeyword | ifKeyword | doKeyword =>
      simp only [step,hk] at h
      cases h
    | quote | semicolon | elseKeyword | thenKeyword | loopKeyword =>
      simp only [step,hk] at h
      split at h <;> cases h
      rfl
  · simp only [step] at h
    split at h <;> cases h
    rfl

/-- Whatever ends too early has a construct or a name open. -/
theorem finish_eq (reading : Reading) :
    (∃ program, reading.finish = .ok program) ∨
      ∃ expected opener, reading.finish = .error (.unexpectedEnd expected opener) := by
  unfold finish
  split
  · exact .inr ⟨_,_,rfl⟩
  · exact .inr ⟨_,_,rfl⟩
  · exact .inl ⟨_,rfl⟩

end Reading

private theorem viable_of_takes {tokens : List Token} {last : Reading}
    (h : Reading.Takes .start tokens last) : Viable tokens := by
  obtain ⟨rest,program,hr⟩ := last.completes
  exact ⟨rest,program,(h.run rest).trans hr⟩

def Unfinished (tokens : List Token) : Prop :=
  ∃ expected opener, ofTokens tokens = .error (.unexpectedEnd expected opener)

/-- The token at an index is refused: the tokens before it are viable, with it they are not, and
the error names it, as a wrong name where one is required and as unexpected elsewhere. -/
structure RefusedAt (tokens : List Token) (index : Nat) (token : Token) : Prop where
  token_eq : tokens[index]? = some token
  viable : Viable (tokens.take index)
  hopeless : ¬ Viable (tokens.take (index + 1))
  error_eq : ofTokens tokens = .error
    (if awaitsName (tokens.take index) then .invalidName token.literal token.position
      else .unexpectedToken token.literal token.position)

theorem refusedAt_of_step {front rest : List Token} {token : Token} {last : Reading}
    {error : ParseError} (ht : Reading.Takes .start front last) (hs : last.step token = .error error) :
    RefusedAt (front ++ token :: rest) front.length token := by
  have hr : ∀ more, ofTokens (front ++ token :: more) = .error error := by
    intro more
    rw [ofTokens,ht.run,Reading.run,hs]
  have hf : (front ++ token :: rest).take front.length = front := List.take_left
  refine ⟨by simp,?_,?_,?_⟩
  · rw [hf]
    exact viable_of_takes ht
  · rintro ⟨more,program,hp⟩
    have hn : (front ++ token :: rest).take (front.length + 1) = front ++ [token] :=
      List.take_length_add_append 1
    rw [hn,List.append_assoc,List.singleton_append,hr] at hp
    cases hp
  · rw [hr,hf,Reading.error_of_step hs,ht.awaitsName]

/-- One of three things becomes of a list of tokens. -/
theorem accepted_or_unfinished_or_refused (tokens : List Token) :
    Accepted tokens ∨ (Unfinished tokens ∧ Viable tokens) ∨ ∃ index token, RefusedAt tokens index token := by
  rcases Reading.takes_or_refuses .start tokens with ⟨last,ht⟩ | ⟨front,token,rest,last,error,rfl,ht,hs⟩
  · have hr := ht.run []
    rw [List.append_nil] at hr
    rcases last.finish_eq with ⟨program,hf⟩ | ⟨expected,opener,hf⟩
    · exact .inl ⟨program,hr.trans hf⟩
    · exact .inr (.inl ⟨⟨expected,opener,hr.trans hf⟩,viable_of_takes ht⟩)
  · exact .inr (.inr ⟨front.length,token,refusedAt_of_step ht hs⟩)

private theorem Accepted.not_unfinished {tokens : List Token} (h : Accepted tokens) : ¬ Unfinished tokens := by
  rintro ⟨expected,opener,hu⟩
  obtain ⟨program,ha⟩ := h
  rw [ha] at hu
  cases hu

theorem RefusedAt.not_unfinished {tokens : List Token} {index : Nat} {token : Token}
    (h : RefusedAt tokens index token) : ¬ Unfinished tokens := by
  rintro ⟨expected,opener,hu⟩
  have he := h.error_eq
  rw [hu] at he
  split at he <;> cases he

theorem RefusedAt.not_viable {tokens : List Token} {index : Nat} {token : Token}
    (h : RefusedAt tokens index token) : ¬ Viable tokens := by
  intro hv
  rw [← List.take_append_drop (index + 1) tokens] at hv
  exact h.hopeless hv.of_append

theorem Accepted.viable {tokens : List Token} (h : Accepted tokens) : Viable tokens :=
  ⟨[],(List.append_nil tokens).symm ▸ h⟩

/-- An error stands where the tokens become hopeless. Of three things exactly one becomes of every
list of tokens: it spells a program; it ends too early, which is what happens exactly to the lists
that spell none and begin one that does; or the first token is refused with which no list at all
spells a program any more, as a wrong name exactly where a name is required. -/
theorem error_stands_where_hopeless (tokens : List Token) :
    ((Accepted tokens ∧ ¬ Unfinished tokens ∧ ¬ ∃ index token, RefusedAt tokens index token) ∨
      (¬ Accepted tokens ∧ Unfinished tokens ∧ ¬ ∃ index token, RefusedAt tokens index token) ∨
      (¬ Accepted tokens ∧ ¬ Unfinished tokens ∧ ∃ index token, RefusedAt tokens index token)) ∧
    (Unfinished tokens ↔ ¬ Accepted tokens ∧ Viable tokens) := by
  rcases accepted_or_unfinished_or_refused tokens with ha | ⟨hu,hv⟩ | ⟨index,token,hr⟩
  · have hn := ha.not_unfinished
    refine ⟨.inl ⟨ha,hn,?_⟩,?_⟩
    · rintro ⟨index,token,hr⟩
      exact hr.not_viable ha.viable
    · exact ⟨fun hu => absurd hu hn,fun h => absurd ha h.1⟩
  · have hn : ¬ Accepted tokens := fun ha => ha.not_unfinished hu
    refine ⟨.inr (.inl ⟨hn,hu,?_⟩),?_⟩
    · rintro ⟨index,token,hr⟩
      exact hr.not_viable hv
    · exact ⟨fun _ => ⟨hn,hv⟩,fun _ => hu⟩
  · have hn : ¬ Accepted tokens := fun ha => hr.not_viable ha.viable
    refine ⟨.inr (.inr ⟨hn,hr.not_unfinished,index,token,hr⟩),?_⟩
    exact ⟨fun hu => absurd hu hr.not_unfinished,fun h => absurd h.2 hr.not_viable⟩

/-- The terminator of an outer construct inside an inner one, and a keyword for a name. -/
example : ofSource ": f if 1 ; then" = .error (.unexpectedToken ";" ⟨1, 10⟩) ∧
    ofSource "do variable if" = .error (.invalidName "if" ⟨1, 13⟩) ∧
    ofSource "do if 1 else" = .error (.unexpectedEnd .thenKeyword ⟨1, 4⟩) := by decide

end Program

end NandStack
