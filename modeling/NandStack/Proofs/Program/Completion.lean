import NandStack.Proofs.Program.Grammar
import NandStack.Proofs.Program.Viability

/-!
Completion: tokens that end too early leave constructs open inside one another, and the error is about
the innermost one. Whoever adds what the error asks for, as long as there is one, completes the program.
-/

namespace NandStack

def Kind.terminator? : Kind → Option Kind
  | .colon => some .semicolon
  | .ifKeyword => some .thenKeyword
  | .doKeyword => some .loopKeyword
  | _ => none

namespace Program

/-- What stands behind the opener of a construct that is not ended: its name, if it needs one, and
bodies that are complete as far as they go. -/
inductive Parts (opener : Token) : List Token → Prop where
  | definition {name : Token} {body : List Token} (ho : opener.kind = .colon)
    (hn : name.kind = .word) (hb : Accepted body) : Parts opener (name :: body)
  | consequence {body : List Token} (ho : opener.kind = .ifKeyword) (hb : Accepted body) :
    Parts opener body
  | alternative {body other : List Token} {turn : Token} (ho : opener.kind = .ifKeyword)
    (hb : Accepted body) (ht : turn.kind = .elseKeyword) (ha : Accepted other) :
    Parts opener (body ++ turn :: other)
  | loop {body : List Token} (ho : opener.kind = .doKeyword) (hb : Accepted body) :
    Parts opener body

/-- The tokens end in a body, inside constructs with these openers, innermost first. -/
inductive OpenInBody : List Token → List Token → Prop where
  | outermost {tokens : List Token} (h : Accepted tokens) : OpenInBody tokens []
  | inner {front openers parts : List Token} {opener : Token} (h : OpenInBody front openers)
    (hp : Parts opener parts) : OpenInBody (front ++ opener :: parts) (opener :: openers)

/-- The tokens end inside constructs with these openers, innermost first. The innermost may still lack
its name. -/
inductive OpenAtEnd : List Token → List Token → Prop where
  | inBody {tokens openers : List Token} (h : OpenInBody tokens openers) : OpenAtEnd tokens openers
  | unnamed {front openers : List Token} {opener : Token} (h : OpenInBody front openers)
    (ho : opensName opener) : OpenAtEnd (front ++ [opener]) (opener :: openers)

/-- Tokens are added one by one, each of the kind that is asked for when its turn comes. -/
inductive Advised (tokens : List Token) : List Token → Prop where
  | nil : Advised tokens []
  | concat {added : List Token} {expected : Kind} {place : Position} {token : Token}
    (h : Advised tokens added)
    (he : ofTokens (tokens ++ added) = .error (.unexpectedEnd expected place))
    (hk : token.kind = expected) : Advised tokens (added ++ [token])

/-- Whatever stands behind the tokens, it is read on from the reading that they lead to. -/
def Leads (tokens : List Token) (last : Reading) : Prop :=
  ∀ after, ofTokens (tokens ++ after) = last.run after

private theorem Leads.finish {tokens : List Token} {last : Reading} (h : Leads tokens last) :
    ofTokens tokens = last.finish := by
  have hf := h []
  rw [List.append_nil] at hf
  exact hf

private theorem Leads.concat {tokens : List Token} {last next : Reading} {token : Token}
    (h : Leads tokens last) (hs : last.step token = .ok next) : Leads (tokens ++ [token]) next := by
  intro after
  rw [List.append_assoc,List.singleton_append,h,Reading.run,hs]

private theorem Leads.of_accepted {tokens : List Token} (h : Accepted tokens) :
    ∃ nodes, Leads tokens ⟨nodes, [], none⟩ := by
  obtain ⟨program,hp⟩ := h
  exact ⟨_,fun after => Reading.run_complete (ofTokens_iff.mp hp) after nil []⟩

structure Frame.OpenedBy (frame : Frame) (opener : Token) : Prop where
  place_eq : frame.opener = opener.position
  terminator_eq : opener.kind.terminator? = some frame.construct.terminator

namespace Reading

private theorem run_parts {opener : Token} {parts : List Token} (h : Parts opener parts) (nodes : Program)
    (enclosing : List Frame) :
    ∃ inner frame, frame.OpenedBy opener ∧ ∀ after,
      run ⟨nodes, enclosing, none⟩ (opener :: (parts ++ after)) =
        run ⟨inner, frame :: enclosing, none⟩ after := by
  cases h with
  | @definition name body ho hn hb =>
    obtain ⟨program,hp⟩ := hb
    refine ⟨program.reverseOnto nil,⟨.definition name.literal, opener.position, nodes⟩,
      ⟨rfl,by rw [ho]; rfl⟩,?_⟩
    intro after
    simp only [List.cons_append,run,step,ho,hn,receiveName,enter,run_complete (ofTokens_iff.mp hp)]
  | consequence ho hb =>
    obtain ⟨program,hp⟩ := hb
    refine ⟨program.reverseOnto nil,⟨.consequence, opener.position, nodes⟩,⟨rfl,by rw [ho]; rfl⟩,?_⟩
    intro after
    simp only [run,step,ho,enter,run_complete (ofTokens_iff.mp hp)]
  | alternative ho hb ht ha =>
    obtain ⟨program,hp⟩ := hb
    obtain ⟨other,hq⟩ := ha
    refine ⟨other.reverseOnto nil,⟨.alternative program, opener.position, nodes⟩,
      ⟨rfl,by rw [ho]; rfl⟩,?_⟩
    intro after
    simp only [List.append_assoc,List.cons_append,run,step,ho,enter,
      run_complete (ofTokens_iff.mp hp),ht,leave?,reverse_reverseOnto,reverseOnto,
      run_complete (ofTokens_iff.mp hq)]
  | loop ho hb =>
    obtain ⟨program,hp⟩ := hb
    refine ⟨program.reverseOnto nil,⟨.loop, opener.position, nodes⟩,⟨rfl,by rw [ho]; rfl⟩,?_⟩
    intro after
    simp only [run,step,ho,enter,run_complete (ofTokens_iff.mp hp)]

end Reading

private theorem OpenInBody.leads {tokens openers : List Token} (h : OpenInBody tokens openers) :
    ∃ nodes enclosing, List.Forall₂ Frame.OpenedBy enclosing openers ∧
      Leads tokens ⟨nodes, enclosing, none⟩ := by
  induction h with
  | outermost h =>
    obtain ⟨nodes,hl⟩ := Leads.of_accepted h
    exact ⟨nodes,[],.nil,hl⟩
  | inner h hp ih =>
    obtain ⟨nodes,enclosing,ho,hl⟩ := ih
    obtain ⟨inner,frame,hf,hr⟩ := Reading.run_parts hp nodes enclosing
    refine ⟨inner,frame :: enclosing,.cons hf ho,?_⟩
    intro after
    rw [List.append_assoc,List.cons_append,hl,hr]

namespace Reading

private theorem Takes.terminals {reading last : Reading} {tokens : List Token}
    (h : Takes reading tokens last) :
    last.terminals = reading.terminals ++ tokens.map Token.terminal := by
  induction h with
  | nil => rw [List.map_nil,List.append_nil]
  | cons hs _ ih => rw [ih,step_terminals hs,List.map_cons,List.append_assoc,List.singleton_append]

private theorem exists_parts (construct : Construct) (nodes : Program) {tokens : List Token}
    (h : tokens.map Token.terminal = construct.terminals ++ nodes.terminals) :
    ∃ opener parts, tokens = opener :: parts ∧ Parts opener parts := by
  cases construct with
  | definition name =>
    obtain ⟨opener,_,rfl,ho,h⟩ := cons_of_mark h
    obtain ⟨named,body,rfl,hn,-,hb⟩ := cons_of_word h
    exact ⟨opener,_,rfl,.definition ho hn ⟨nodes,ofTokens_iff.mpr hb⟩⟩
  | consequence =>
    obtain ⟨opener,body,rfl,ho,hb⟩ := cons_of_mark h
    exact ⟨opener,body,rfl,.consequence ho ⟨nodes,ofTokens_iff.mpr hb⟩⟩
  | alternative first =>
    simp only [Construct.terminals,List.cons_append,List.append_assoc] at h
    obtain ⟨opener,_,rfl,ho,h⟩ := cons_of_mark h
    obtain ⟨body,_,rfl,hb,h⟩ := List.map_eq_append_iff.mp h
    obtain ⟨turn,other,rfl,ht,ha⟩ := cons_of_mark h
    exact ⟨opener,_,rfl,
      .alternative ho ⟨first,ofTokens_iff.mpr hb⟩ ht ⟨nodes,ofTokens_iff.mpr ha⟩⟩
  | loop =>
    obtain ⟨opener,body,rfl,ho,hb⟩ := cons_of_mark h
    exact ⟨opener,body,rfl,.loop ho ⟨nodes,ofTokens_iff.mpr hb⟩⟩

private theorem exists_openInBody {nodes : Program} {enclosing : List Frame} {tokens : List Token}
    (h : tokens.map Token.terminal = terminals ⟨nodes, enclosing, none⟩) :
    ∃ openers, OpenInBody tokens openers := by
  -- The induction is on the frames.
  induction enclosing generalizing nodes tokens with
  | nil =>
    have hn : tokens.map Token.terminal = nodes.reverse.terminals := by
      simpa [terminals] using h
    exact ⟨[],.outermost ⟨nodes.reverse,ofTokens_iff.mpr hn⟩⟩
  | cons frame enclosing ih =>
    have hs : tokens.map Token.terminal = terminals ⟨frame.before, enclosing, none⟩ ++
        (frame.construct.terminals ++ nodes.reverse.terminals) := by
      simpa [terminals,Frame.terminals] using h
    obtain ⟨front,rest,rfl,hf,hr⟩ := List.map_eq_append_iff.mp hs
    obtain ⟨openers,ho⟩ := ih hf
    obtain ⟨opener,parts,rfl,hp⟩ := exists_parts frame.construct nodes.reverse hr
    exact ⟨opener :: openers,.inner ho hp⟩

private theorem Takes.openAtEnd {tokens : List Token} {last : Reading} (h : Takes .start tokens last) :
    ∃ openers, OpenAtEnd tokens openers := by
  have ht : tokens.map Token.terminal = last.terminals := h.terminals.symm
  obtain ⟨nodes,enclosing,_ | ⟨named,place⟩⟩ := last
  · obtain ⟨openers,ho⟩ := exists_openInBody ht
    exact ⟨openers,.inBody ho⟩
  · have hs : tokens.map Token.terminal =
        Reading.terminals ⟨nodes, enclosing, none⟩ ++ [named.terminal] := by
      simpa [Reading.terminals] using ht
    obtain ⟨front,rest,rfl,hf,hr⟩ := List.map_eq_append_iff.mp hs
    obtain ⟨opener,rfl,hk⟩ := List.map_eq_singleton_iff.mp hr
    obtain ⟨openers,ho⟩ := exists_openInBody hf
    refine ⟨opener :: openers,.unnamed ho ?_⟩
    unfold opensName
    cases named with
    | definition | declaration => rw [((opener.terminal_eq_mark_iff _).mp hk).1]; rfl

end Reading

def Named.lacking : Named → Nat
  | .definition => 2
  | .declaration => 1

private theorem Named.lacking_pos (named : Named) : 0 < named.lacking := by
  cases named <;> decide

private theorem Named.lacking_le (named : Named) : named.lacking ≤ 2 := by
  cases named <;> decide

namespace Reading

/-- How many tokens are missing: one for each open construct, and what the awaited name is for. -/
def lacking (reading : Reading) : Nat :=
  reading.enclosing.length + reading.awaiting.elim 0 fun awaited => awaited.1.lacking

private theorem lacking_of_finish {reading : Reading} {program : Program} (h : reading.finish = .ok program) :
    reading.lacking = 0 := by
  obtain ⟨nodes,enclosing,_ | awaited⟩ := reading
  · cases enclosing with
    | nil => rfl
    | cons frame enclosing => cases h
  · cases h

private theorem lacking_pos_of_finish {reading : Reading} {expected : Kind} {place : Position}
    (h : reading.finish = .error (.unexpectedEnd expected place)) : 0 < reading.lacking := by
  obtain ⟨nodes,enclosing,_ | ⟨named,opener⟩⟩ := reading
  · cases enclosing with
    | nil => cases h
    | cons frame enclosing => exact Nat.succ_pos enclosing.length
  · exact Nat.add_pos_right enclosing.length named.lacking_pos

private theorem step_expected {reading : Reading} {expected : Kind} {place : Position} {token : Token}
    (h : reading.finish = .error (.unexpectedEnd expected place)) (hk : token.kind = expected) :
    ∃ next, reading.step token = .ok next ∧ next.lacking + 1 = reading.lacking := by
  obtain ⟨nodes,enclosing,_ | ⟨named,opener⟩⟩ := reading
  · cases enclosing with
    | nil => cases h
    | cons frame enclosing =>
      cases h
      obtain ⟨outer,hs⟩ := step_terminator nodes frame enclosing hk
      exact ⟨_,hs,rfl⟩
  · cases h
    simp only [step,hk]
    refine ⟨_,rfl,?_⟩
    cases named <;> rfl

private theorem expected_eq_word_iff {reading : Reading} {expected : Kind} {place : Position}
    (h : reading.finish = .error (.unexpectedEnd expected place)) :
    expected = .word ↔ reading.awaiting.isSome := by
  obtain ⟨nodes,enclosing,_ | awaited⟩ := reading
  · cases enclosing with
    | nil => cases h
    | cons frame enclosing =>
      cases h
      cases frame.construct <;> simp [Construct.terminator]
  · cases h
    simp

end Reading

private theorem exists_takes {tokens : List Token} {expected : Kind} {place : Position}
    (h : ofTokens tokens = .error (.unexpectedEnd expected place)) :
    ∃ last, Reading.Takes .start tokens last ∧ last.finish = .error (.unexpectedEnd expected place) := by
  rcases Reading.takes_or_refuses .start tokens with ⟨last,ht⟩ | ⟨front,token,rest,last,error,rfl,ht,hs⟩
  · exact ⟨last,ht,(Leads.finish ht.run).symm.trans h⟩
  · exact absurd ⟨expected,place,h⟩ (refusedAt_of_step ht hs).not_unfinished

private theorem expected_eq_word_iff_awaitsName {tokens : List Token} {expected : Kind} {place : Position}
    (h : ofTokens tokens = .error (.unexpectedEnd expected place)) :
    expected = .word ↔ awaitsName tokens := by
  obtain ⟨last,ht,hf⟩ := exists_takes h
  rw [Reading.expected_eq_word_iff hf,ht.awaitsName]

/-- The opener of the construct that an error is about, with what the construct lacks: its name if the
opener is the last token, and what ends it otherwise. -/
structure Lacks (tokens : List Token) (opener : Token) (expected : Kind) (place : Position) : Prop where
  place_eq : place = opener.position
  word_iff : expected = .word ↔ awaitsName tokens
  getLast_eq : expected = .word → tokens.getLast? = some opener
  terminator_eq : expected ≠ .word → opener.kind.terminator? = some expected

private theorem OpenInBody.leads_opener {front openers : List Token} {opener : Token}
    (h : OpenInBody front openers) (ho : opensName opener) :
    ∃ nodes enclosing named, List.Forall₂ Frame.OpenedBy enclosing openers ∧
      Leads (front ++ [opener]) ⟨nodes, enclosing, some (named, opener.position)⟩ := by
  obtain ⟨nodes,enclosing,hf,hl⟩ := h.leads
  have hk : opener.kind = .colon ∨ opener.kind = .variableKeyword := by
    simpa [opensName] using ho
  rcases hk with hk | hk
  · refine ⟨nodes,enclosing,.definition,hf,hl.concat ?_⟩
    simp only [Reading.step,hk]
  · refine ⟨nodes,enclosing,.declaration,hf,hl.concat ?_⟩
    simp only [Reading.step,hk]

private theorem OpenAtEnd.lacks {tokens openers : List Token} {expected : Kind} {place : Position}
    (h : OpenAtEnd tokens openers) (he : ofTokens tokens = .error (.unexpectedEnd expected place)) :
    ∃ opener ∈ openers.head?, Lacks tokens opener expected place := by
  have hw := expected_eq_word_iff_awaitsName he
  cases h with
  | inBody h =>
    -- Reading stands inside a frame for each opener, so the error is about the innermost one.
    obtain ⟨nodes,enclosing,hf,hl⟩ := h.leads
    rw [hl.finish] at he
    cases hf with
    | nil => cases he
    | @cons frame opener _ _ ho _ =>
      cases he
      have hn : frame.construct.terminator ≠ .word := by
        cases frame.construct <;> simp [Construct.terminator]
      refine ⟨opener,rfl,ho.place_eq,hw,?_,?_⟩
      · intro hq
        exact absurd hq hn
      · intro _
        exact ho.terminator_eq
  | @unnamed front _ opener h ho =>
    obtain ⟨nodes,enclosing,named,-,hl⟩ := h.leads_opener ho
    rw [hl.finish] at he
    cases he
    refine ⟨opener,rfl,rfl,hw,?_,?_⟩
    · intro _
      exact List.getLast?_concat
    · intro hn
      exact absurd rfl hn

private theorem OpenAtEnd.leads {tokens openers : List Token} (h : OpenAtEnd tokens openers) :
    ∃ last, Leads tokens last ∧ last.lacking ≤ openers.length + 1 := by
  cases h with
  | inBody h =>
    obtain ⟨nodes,enclosing,hf,hl⟩ := h.leads
    refine ⟨_,hl,?_⟩
    rw [← hf.length_eq]
    exact Nat.le_succ _
  | unnamed h ho =>
    obtain ⟨nodes,enclosing,named,hf,hl⟩ := h.leads_opener ho
    refine ⟨_,hl,?_⟩
    rw [List.length_cons,← hf.length_eq]
    exact Nat.add_le_add_left named.lacking_le _

private theorem Advised.leads {tokens added : List Token} {last : Reading} (h : Advised tokens added)
    (hl : Leads tokens last) :
    ∃ next, Leads (tokens ++ added) next ∧ next.lacking + added.length = last.lacking := by
  induction h with
  | nil =>
    rw [List.append_nil]
    exact ⟨last,hl,rfl⟩
  | concat h he hk ih =>
    obtain ⟨reading,hr,hc⟩ := ih
    rw [hr.finish] at he
    obtain ⟨next,hs,hn⟩ := Reading.step_expected he hk
    refine ⟨next,?_,?_⟩
    · rw [← List.append_assoc]
      exact hr.concat hs
    · rw [List.length_append,List.length_singleton,← hc,← hn]
      omega

/-- What is asked for can always be added until nothing is missing. The induction is on how many tokens
are missing. -/
theorem Advised.completes {tokens added : List Token} {last : Reading} (h : Advised tokens added)
    (hl : Leads (tokens ++ added) last) :
    ∃ more, Advised tokens (added ++ more) ∧ Accepted (tokens ++ (added ++ more)) := by
  induction hc : last.lacking generalizing added last with
  | zero =>
    rcases last.finish_eq with ⟨program,hf⟩ | ⟨expected,place,hf⟩
    · refine ⟨[],?_,program,?_⟩
      · rwa [List.append_nil]
      · rw [List.append_nil,hl.finish,hf]
    · have hp := Reading.lacking_pos_of_finish hf
      omega
  | succ count ih =>
    rcases last.finish_eq with ⟨program,hf⟩ | ⟨expected,place,hf⟩
    · have hz := Reading.lacking_of_finish hf
      omega
    · obtain ⟨token,hk⟩ := expected.exists_token
      obtain ⟨next,hs,hn⟩ := Reading.step_expected hf hk
      have ha : Advised tokens (added ++ [token]) := h.concat (hl.finish.trans hf) hk
      have hm : Leads (tokens ++ (added ++ [token])) next := by
        rw [← List.append_assoc]
        exact hl.concat hs
      obtain ⟨more,hd,hp⟩ := ih ha hm (by omega)
      refine ⟨token :: more,?_⟩
      rw [List.append_assoc,List.singleton_append] at hd hp
      exact ⟨hd,hp⟩

/-- Tokens that end too early say how to go on. They end inside constructs of which the innermost is
named with its opener and with what it lacks. A token of the kind that is asked for is never refused.
Whoever goes on adding what is asked for comes to a program, whichever tokens of these kinds are taken,
and adds at most one token more than there are open constructs. -/
theorem unexpectedEnd_tells_how_to_finish {tokens : List Token} {expected : Kind} {place : Position}
    (h : ofTokens tokens = .error (.unexpectedEnd expected place)) :
    (∃ openers, OpenAtEnd tokens openers) ∧
    ∀ openers, OpenAtEnd tokens openers →
      (∃ opener ∈ openers.head?, Lacks tokens opener expected place) ∧
      (∀ token : Token, token.kind = expected →
        Accepted (tokens ++ [token]) ∨ Unfinished (tokens ++ [token])) ∧
      ∀ added, Advised tokens added →
        (Accepted (tokens ++ added) ∧ added.length ≤ openers.length + 1 ∨
          Unfinished (tokens ++ added) ∧ added.length ≤ openers.length) ∧
        ∃ more, Advised tokens (added ++ more) ∧ Accepted (tokens ++ (added ++ more)) := by
  constructor
  · obtain ⟨last,ht,-⟩ := exists_takes h
    exact ht.openAtEnd
  intro openers ho
  obtain ⟨last,hl,hc⟩ := ho.leads
  -- What is missing at first is either added already or missing still, and it is nothing at the end only.
  have hf : ∀ added, Advised tokens added →
      Accepted (tokens ++ added) ∧ added.length ≤ openers.length + 1 ∨
        Unfinished (tokens ++ added) ∧ added.length ≤ openers.length := by
    intro added ha
    obtain ⟨next,hn,he⟩ := ha.leads hl
    rcases next.finish_eq with ⟨program,hp⟩ | ⟨expected,place,hp⟩
    · exact .inl ⟨⟨program,hn.finish.trans hp⟩,by omega⟩
    · have hm := Reading.lacking_pos_of_finish hp
      exact .inr ⟨⟨expected,place,hn.finish.trans hp⟩,by omega⟩
  refine ⟨ho.lacks h,?_,?_⟩
  · intro token hk
    have he : ofTokens (tokens ++ []) = .error (.unexpectedEnd expected place) := by
      rw [List.append_nil,h]
    exact (hf [token] (.concat .nil he hk)).imp And.left And.left
  · intro added ha
    obtain ⟨next,hn,-⟩ := ha.leads hl
    exact ⟨hf added ha,ha.completes hn⟩

/-- A declaration without a name, inside a loop, in the alternative of a definition's conditional. -/
theorem unexpectedEnd_tells_how_to_finish_nested :
    let tokens := Token.scan ": f if 1 else do variable"
    let openers : List Token := [⟨"variable", ⟨1, 18⟩⟩, ⟨"do", ⟨1, 15⟩⟩, ⟨"if", ⟨1, 5⟩⟩, ⟨":", ⟨1, 1⟩⟩]
    OpenAtEnd tokens openers ∧ ofTokens tokens = .error (.unexpectedEnd .word ⟨1, 18⟩) ∧
      (∃ opener ∈ openers.head?, Lacks tokens opener .word ⟨1, 18⟩) ∧
      ∃ more, Advised tokens more ∧ Accepted (tokens ++ more) := by
  intro tokens openers
  have hd := (@OpenInBody.outermost [] ⟨nil,rfl⟩).inner
    (@Parts.definition ⟨":", ⟨1, 1⟩⟩ ⟨"f", ⟨1, 3⟩⟩ [] (by decide) (by decide) ⟨nil,rfl⟩)
  have hi := hd.inner (@Parts.alternative ⟨"if", ⟨1, 5⟩⟩ [⟨"1", ⟨1, 8⟩⟩] [] ⟨"else", ⟨1, 10⟩⟩
    (by decide) ⟨push 1 nil,by decide⟩ (by decide) ⟨nil,rfl⟩)
  have hl := hi.inner (@Parts.loop ⟨"do", ⟨1, 15⟩⟩ [] (by decide) ⟨nil,rfl⟩)
  have ht : tokens = [⟨":", ⟨1, 1⟩⟩, ⟨"f", ⟨1, 3⟩⟩, ⟨"if", ⟨1, 5⟩⟩, ⟨"1", ⟨1, 8⟩⟩, ⟨"else", ⟨1, 10⟩⟩,
    ⟨"do", ⟨1, 15⟩⟩, ⟨"variable", ⟨1, 18⟩⟩] := by decide
  have ho : OpenAtEnd tokens openers := by
    rw [ht]
    exact .unnamed hl (by decide)
  have he : ofTokens tokens = .error (.unexpectedEnd .word ⟨1, 18⟩) := by decide
  obtain ⟨hk,-,ha⟩ := (unexpectedEnd_tells_how_to_finish he).2 openers ho
  exact ⟨ho,he,hk,(ha [] .nil).2⟩

end Program

end NandStack
