import Mathlib.Data.List.Forall2
import NandStack.Proofs.Program.Terminals

/-!
Reading is exactly the grammar: a list of tokens spells a program if and only if its terminals are
the program's. A partly read program accounts for every token taken so far, in order.
-/

namespace NandStack.Program

/-- The terminals taken since the opener of a construct, its innermost body left out. -/
def Construct.terminals : Construct → List Terminal
  | .definition name => [.mark .colon, .word name]
  | .consequence => [.mark .ifKeyword]
  | .alternative first => .mark .ifKeyword :: (first.terminals ++ [.mark .elseKeyword])
  | .loop => [.mark .doKeyword]

def Frame.terminals (frame : Frame) : List Terminal :=
  frame.before.reverse.terminals ++ frame.construct.terminals

def Named.terminal : Named → Terminal
  | .definition => .mark .colon
  | .declaration => .mark .variableKeyword

namespace Reading

def terminals (reading : Reading) : List Terminal :=
  reading.enclosing.reverse.flatMap Frame.terminals ++
    (reading.nodes.reverse.terminals ++ (reading.awaiting.map fun awaited => awaited.1.terminal).toList)

private theorem receiveName_terminals (nodes : Program) (enclosing : List Frame) (named : Named)
    (opener : Position) (name : String) :
    (receiveName ⟨nodes, enclosing, some (named, opener)⟩ named opener name).terminals =
      terminals ⟨nodes, enclosing, some (named, opener)⟩ ++ [.word name] := by
  cases named with
  | definition =>
    simp [receiveName,enter,terminals,Frame.terminals,Construct.terminals,Named.terminal]
  | declaration =>
    have hn := terminals_reverse_node (.declare name) (fun _ => rfl) nodes
    simp [receiveName,terminals,hn,Named.terminal,Program.terminals]

private theorem leave?_terminals {nodes : Program} {enclosing : List Frame} {kind : Kind} {next : Reading}
    (h : leave? ⟨nodes, enclosing, none⟩ kind = some next) :
    next.terminals = terminals ⟨nodes, enclosing, none⟩ ++ [.mark kind] := by
  cases enclosing with
  | nil => simp [leave?] at h
  | cons frame enclosing =>
    obtain ⟨construct,opener,before⟩ := frame
    simp only [leave?] at h
    split at h <;> cases h
    · rename_i name
      have hn := terminals_reverse_node (.define name nodes.reverse) (fun _ => rfl) before
      simp [terminals,hn,Frame.terminals,Construct.terminals,Program.terminals]
    · have hn := terminals_reverse_node (.ifThen nodes.reverse) (fun _ => rfl) before
      simp [terminals,hn,Frame.terminals,Construct.terminals,Program.terminals]
    · simp [terminals,Frame.terminals,Construct.terminals]
    · rename_i first
      have hn := terminals_reverse_node (.ifElse first nodes.reverse) (fun _ => rfl) before
      simp [terminals,hn,Frame.terminals,Construct.terminals,Program.terminals]
    · have hn := terminals_reverse_node (.loop nodes.reverse) (fun _ => rfl) before
      simp [terminals,hn,Frame.terminals,Construct.terminals,Program.terminals]

/-- One step accounts for one token. -/
theorem step_terminals {reading next : Reading} {token : Token} (h : reading.step token = .ok next) :
    next.terminals = reading.terminals ++ [token.terminal] := by
  obtain ⟨nodes,enclosing,awaiting⟩ := reading
  cases awaiting with
  | some awaited =>
    obtain ⟨named,opener⟩ := awaited
    simp only [step] at h
    split at h
    · rename_i hk
      cases h
      rw [receiveName_terminals,(token.terminal_eq_word_iff _).mpr ⟨hk,rfl⟩]
    · cases h
  | none =>
    cases hk : token.kind with
    | integer value =>
      have hn := terminals_reverse_node (.push value) (fun _ => rfl) nodes
      simp only [step,hk] at h
      cases h
      rw [(token.terminal_eq_mark_iff _).mpr ⟨hk,by simp⟩]
      simp [terminals,hn,Program.terminals]
    | word =>
      have hn := terminals_reverse_node (.call token.literal) (fun _ => rfl) nodes
      simp only [step,hk] at h
      cases h
      rw [(token.terminal_eq_word_iff _).mpr ⟨hk,rfl⟩]
      simp [terminals,hn,Program.terminals]
    | colon | variableKeyword =>
      simp only [step,hk] at h
      cases h
      rw [(token.terminal_eq_mark_iff _).mpr ⟨hk,by simp⟩]
      simp [terminals,Named.terminal]
    | ifKeyword | doKeyword =>
      simp only [step,hk] at h
      cases h
      rw [(token.terminal_eq_mark_iff _).mpr ⟨hk,by simp⟩]
      simp [enter,terminals,Frame.terminals,Construct.terminals]
    | quote | semicolon | elseKeyword | thenKeyword | loopKeyword =>
      simp only [step,hk] at h
      split at h
      · rename_i hl
        cases h
        rw [leave?_terminals hl,(token.terminal_eq_mark_iff _).mpr ⟨hk,by simp⟩]
      · cases h

private theorem finish_terminals {reading : Reading} {program : Program} (h : reading.finish = .ok program) :
    program.terminals = reading.terminals := by
  obtain ⟨nodes,enclosing,awaiting⟩ := reading
  simp only [finish] at h
  split at h <;> cases h
  simp [terminals]

/-- Reading neither loses nor invents a token: a program that comes out at the end is written
with the terminals that went in. -/
theorem run_sound {reading : Reading} {tokens : List Token} {program : Program}
    (h : reading.run tokens = .ok program) :
    program.terminals = reading.terminals ++ tokens.map Token.terminal := by
  induction tokens generalizing reading with
  | nil => simpa using finish_terminals h
  | cons token rest ih =>
    rw [run] at h
    split at h
    · rename_i next hs
      rw [ih h,step_terminals hs]
      simp
    · cases h

theorem cons_of_mark {tokens : List Token} {kind : Kind} {after : List Terminal}
    (h : tokens.map Token.terminal = .mark kind :: after) :
    ∃ token tail, tokens = token :: tail ∧ token.kind = kind ∧ tail.map Token.terminal = after := by
  obtain ⟨token,tail,rfl,ht,hr⟩ := List.map_eq_cons_iff.mp h
  exact ⟨token,tail,rfl,((token.terminal_eq_mark_iff _).mp ht).1,hr⟩

theorem cons_of_word {tokens : List Token} {name : String} {after : List Terminal}
    (h : tokens.map Token.terminal = .word name :: after) :
    ∃ token tail, tokens = token :: tail ∧ token.kind = .word ∧ token.literal = name ∧
      tail.map Token.terminal = after := by
  obtain ⟨token,tail,rfl,ht,hr⟩ := List.map_eq_cons_iff.mp h
  obtain ⟨hk,hn⟩ := (token.terminal_eq_word_iff _).mp ht
  exact ⟨token,tail,rfl,hk,hn,hr⟩

/-- The tokens of a program put its nodes before those already held and leave the open constructs
alone, whatever comes after them. -/
theorem run_complete {program : Program} {tokens : List Token}
    (h : tokens.map Token.terminal = program.terminals) (after : List Token) (nodes : Program)
    (enclosing : List Frame) :
    run ⟨nodes, enclosing, none⟩ (tokens ++ after) =
      run ⟨program.reverseOnto nodes, enclosing, none⟩ after := by
  induction program generalizing tokens after nodes enclosing with
  | nil =>
    rw [List.map_eq_nil_iff.mp h]
    rfl
  | push value rest ih =>
    obtain ⟨token,tail,rfl,hk,hr⟩ := cons_of_mark h
    simp only [List.cons_append,run,step,hk,ih hr,reverseOnto]
  | call name rest ih =>
    obtain ⟨token,tail,rfl,hk,rfl,hr⟩ := cons_of_word h
    simp only [List.cons_append,run,step,hk,ih hr,reverseOnto]
  | define name body rest ihb ihr =>
    obtain ⟨opener,_,rfl,ho,h⟩ := cons_of_mark h
    obtain ⟨named,_,rfl,hn,rfl,hm⟩ := cons_of_word h
    obtain ⟨inner,_,rfl,hb,hm⟩ := List.map_eq_append_iff.mp hm
    obtain ⟨closer,tail,rfl,hc,hr⟩ := cons_of_mark hm
    simp only [List.cons_append,List.append_assoc,run,step,ho,hn,receiveName,enter,ihb hb,hc,leave?,
      reverse_reverseOnto,reverseOnto,ihr hr]
  | declare name rest ih =>
    obtain ⟨opener,_,rfl,ho,h⟩ := cons_of_mark h
    obtain ⟨named,tail,rfl,hn,rfl,hr⟩ := cons_of_word h
    simp only [List.cons_append,run,step,ho,hn,receiveName,ih hr,reverseOnto]
  | ifThen consequence rest ihc ihr =>
    obtain ⟨opener,_,rfl,ho,h⟩ := cons_of_mark h
    obtain ⟨inner,_,rfl,hi,h⟩ := List.map_eq_append_iff.mp h
    obtain ⟨closer,tail,rfl,hc,hr⟩ := cons_of_mark h
    simp only [List.cons_append,List.append_assoc,run,step,ho,enter,ihc hi,hc,leave?,
      reverse_reverseOnto,reverseOnto,ihr hr]
  | ifElse consequence alternative rest ihc iha ihr =>
    obtain ⟨opener,_,rfl,ho,h⟩ := cons_of_mark h
    obtain ⟨inner,_,rfl,hi,h⟩ := List.map_eq_append_iff.mp h
    obtain ⟨turn,_,rfl,ht,h⟩ := cons_of_mark h
    obtain ⟨other,_,rfl,ha,h⟩ := List.map_eq_append_iff.mp h
    obtain ⟨closer,tail,rfl,hc,hr⟩ := cons_of_mark h
    simp only [List.cons_append,List.append_assoc,run,step,ho,enter,ihc hi,ht,iha ha,hc,leave?,
      reverse_reverseOnto,reverseOnto,ihr hr]
  | loop body rest ihb ihr =>
    obtain ⟨opener,_,rfl,ho,h⟩ := cons_of_mark h
    obtain ⟨inner,_,rfl,hi,h⟩ := List.map_eq_append_iff.mp h
    obtain ⟨closer,tail,rfl,hc,hr⟩ := cons_of_mark h
    simp only [List.cons_append,List.append_assoc,run,step,ho,enter,ihb hi,hc,leave?,
      reverse_reverseOnto,reverseOnto,ihr hr]

end Reading

/-- The reference grammar: what is read, and that nothing else is. -/
theorem ofTokens_iff {tokens : List Token} {program : Program} :
    ofTokens tokens = .ok program ↔ tokens.map Token.terminal = program.terminals := by
  constructor
  · intro h
    exact (Reading.run_sound h).symm
  · intro h
    have hr := Reading.run_complete h [] .nil []
    rw [List.append_nil] at hr
    exact hr.trans (congrArg Except.ok (reverse_reverseOnto program nil))

private theorem map_terminal_eq_iff (tokens others : List Token) :
    tokens.map Token.terminal = others.map Token.terminal ↔
      List.Forall₂ Token.Interchangeable tokens others := by
  have hi : Token.Interchangeable = fun first second => first.terminal = second.terminal := by
    funext first second
    exact propext (first.interchangeable_iff second)
  rw [← List.forall₂_eq_eq_eq,List.forall₂_map_left_iff,List.forall₂_map_right_iff,hi]

/-- Reading accepts exactly the terminals of programs, with one program for each list of tokens;
the lists of one program differ in places and in the spelling of integers only. -/
theorem ofTokens_exact (tokens : List Token) (program : Program) :
    (ofTokens tokens = .ok program ↔ tokens.map Token.terminal = program.terminals) ∧
    (∀ other : Program, tokens.map Token.terminal = program.terminals →
      tokens.map Token.terminal = other.terminals → other = program) ∧
    (∀ others : List Token, ofTokens tokens = .ok program →
      (ofTokens others = .ok program ↔ List.Forall₂ Token.Interchangeable tokens others)) := by
  refine ⟨ofTokens_iff,?_,?_⟩
  · intro other hp ho
    have h := (ofTokens_iff.mpr ho).symm.trans (ofTokens_iff.mpr hp)
    exact Except.ok.inj h
  · intro others h
    rw [← map_terminal_eq_iff,ofTokens_iff.mp h,ofTokens_iff,eq_comm]

/-- One program under two spellings of its integer, at different places. -/
theorem ofTokens_exact_respelled :
    let tokens : List Token := [⟨":", ⟨1, 1⟩⟩, ⟨"f", ⟨1, 3⟩⟩, ⟨"-007", ⟨1, 5⟩⟩, ⟨";", ⟨1, 10⟩⟩]
    let others : List Token := [⟨":", ⟨1, 1⟩⟩, ⟨"f", ⟨2, 1⟩⟩, ⟨"-7", ⟨2, 4⟩⟩, ⟨";", ⟨3, 1⟩⟩]
    let program := define "f" (push (-7) nil) nil
    tokens.map Token.terminal = program.terminals ∧ ofTokens tokens = .ok program ∧
      ofTokens others = .ok program ∧ List.Forall₂ Token.Interchangeable tokens others := by
  intro tokens others program
  have ht : tokens.map Token.terminal = program.terminals := by decide
  have hp := (ofTokens_exact tokens program).1.mpr ht
  have ho : ofTokens others = .ok program := by decide
  exact ⟨ht,hp,ho,((ofTokens_exact tokens program).2.2 others hp).mp ho⟩

end NandStack.Program
