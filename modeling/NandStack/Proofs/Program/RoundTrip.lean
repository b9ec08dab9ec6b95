import NandStack.Program
import NandStack.Proofs.Decimal
import NandStack.Proofs.Program.Grammar
import NandStack.Proofs.Token.Scan

/-!
Texts and programs: the text of a program reads back as that program exactly when each of its
names is one word, and the names of every program that was read are words.
-/

namespace NandStack.Program

def names : Program → List String
  | nil => []
  | push _ rest => rest.names
  | call name rest => name :: rest.names
  | define name body rest => name :: (body.names ++ rest.names)
  | declare name rest => name :: rest.names
  | ifThen consequence rest => consequence.names ++ rest.names
  | ifElse consequence alternative rest =>
    consequence.names ++ (alternative.names ++ rest.names)
  | loop body rest => body.names ++ rest.names

/-- A name that scanning finds whole and that is neither a numeral nor reserved. -/
def IsName (name : String) : Prop :=
  Token.IsRun name ∧ Kind.ofLiteral name = .word

instance (name : String) : Decidable (IsName name) :=
  inferInstanceAs (Decidable (_ ∧ _))

def Printable (program : Program) : Prop :=
  ∀ name ∈ program.names, IsName name

instance (program : Program) : Decidable program.Printable :=
  inferInstanceAs (Decidable (∀ _ ∈ _, _))

private theorem isRun_write (value : Int64) : Token.IsRun (Decimal.write value) := by
  refine ⟨Decimal.write_ne_empty value,?_⟩
  intro character hm
  rcases Decimal.isDigit_or_minus_of_mem_write hm with hd | rfl
  · cases hb : Token.isBlank character with
    | false => rfl
    | true =>
      simp only [Token.isBlank,Bool.or_eq_true,decide_eq_true_eq] at hb
      rcases hb with ((rfl | rfl) | rfl) | rfl <;> exact absurd hd (by decide)
  · decide

private theorem terminal_write (value : Int64) :
    Terminal.ofLiteral (Decimal.write value) = .mark (.integer value) :=
  Terminal.ofLiteral_of_ne_word (Kind.ofLiteral_write value) (by simp)

private theorem isRun_of_reserved (kind : Kind) {literal : String} (h : kind.reserved? = some literal) :
    Token.IsRun literal := by
  cases kind <;> cases h <;> decide

private theorem terminal_of_reserved (kind : Kind) {literal : String} (h : kind.reserved? = some literal) :
    Terminal.ofLiteral literal = .mark kind := by
  cases kind <;> cases h <;> rfl

private theorem Printable.spelling_runs {program : Program} (h : program.Printable) :
    ∀ word ∈ program.spelling, Token.IsRun word := by
  induction program with
  | nil => simp [spelling]
  | push value rest ih =>
    simp only [spelling,List.forall_mem_cons]
    exact ⟨isRun_write value,ih h⟩
  | call name rest ih =>
    obtain ⟨hn,hr⟩ := List.forall_mem_cons.mp h
    simp only [spelling,List.forall_mem_cons]
    exact ⟨hn.1,ih hr⟩
  | define name body rest ihb ihr =>
    obtain ⟨hn,h⟩ := List.forall_mem_cons.mp h
    obtain ⟨hb,hr⟩ := List.forall_mem_append.mp h
    simp only [spelling,List.forall_mem_cons,List.forall_mem_append]
    exact ⟨isRun_of_reserved .colon rfl,hn.1,ihb hb,isRun_of_reserved .semicolon rfl,ihr hr⟩
  | declare name rest ih =>
    obtain ⟨hn,hr⟩ := List.forall_mem_cons.mp h
    simp only [spelling,List.forall_mem_cons]
    exact ⟨isRun_of_reserved .variableKeyword rfl,hn.1,ih hr⟩
  | ifThen consequence rest ihc ihr =>
    obtain ⟨hc,hr⟩ := List.forall_mem_append.mp h
    simp only [spelling,List.forall_mem_cons,List.forall_mem_append]
    exact ⟨isRun_of_reserved .ifKeyword rfl,ihc hc,isRun_of_reserved .thenKeyword rfl,ihr hr⟩
  | ifElse consequence alternative rest ihc iha ihr =>
    obtain ⟨hc,h⟩ := List.forall_mem_append.mp h
    obtain ⟨ha,hr⟩ := List.forall_mem_append.mp h
    simp only [spelling,List.forall_mem_cons,List.forall_mem_append]
    exact ⟨isRun_of_reserved .ifKeyword rfl,ihc hc,isRun_of_reserved .elseKeyword rfl,iha ha,
      isRun_of_reserved .thenKeyword rfl,ihr hr⟩
  | loop body rest ihb ihr =>
    obtain ⟨hb,hr⟩ := List.forall_mem_append.mp h
    simp only [spelling,List.forall_mem_cons,List.forall_mem_append]
    exact ⟨isRun_of_reserved .doKeyword rfl,ihb hb,isRun_of_reserved .loopKeyword rfl,ihr hr⟩

private theorem Printable.map_ofLiteral_spelling {program : Program} (h : program.Printable) :
    program.spelling.map Terminal.ofLiteral = program.terminals := by
  induction program with
  | nil => rfl
  | push value rest ih => rw [spelling,List.map_cons,terminal_write,ih h,terminals]
  | call name rest ih =>
    obtain ⟨hn,hr⟩ := List.forall_mem_cons.mp h
    rw [spelling,List.map_cons,Terminal.ofLiteral_of_word hn.2,ih hr,terminals]
  | define name body rest ihb ihr =>
    obtain ⟨hn,h⟩ := List.forall_mem_cons.mp h
    obtain ⟨hb,hr⟩ := List.forall_mem_append.mp h
    simp only [spelling,List.map_cons,List.map_append,terminal_of_reserved .colon rfl,
      terminal_of_reserved .semicolon rfl,Terminal.ofLiteral_of_word hn.2,ihb hb,ihr hr,terminals]
  | declare name rest ih =>
    obtain ⟨hn,hr⟩ := List.forall_mem_cons.mp h
    simp only [spelling,List.map_cons,terminal_of_reserved .variableKeyword rfl,
      Terminal.ofLiteral_of_word hn.2,ih hr,terminals]
  | ifThen consequence rest ihc ihr =>
    obtain ⟨hc,hr⟩ := List.forall_mem_append.mp h
    simp only [spelling,List.map_cons,List.map_append,terminal_of_reserved .ifKeyword rfl,
      terminal_of_reserved .thenKeyword rfl,ihc hc,ihr hr,terminals]
  | ifElse consequence alternative rest ihc iha ihr =>
    obtain ⟨hc,h⟩ := List.forall_mem_append.mp h
    obtain ⟨ha,hr⟩ := List.forall_mem_append.mp h
    simp only [spelling,List.map_cons,List.map_append,terminal_of_reserved .ifKeyword rfl,
      terminal_of_reserved .elseKeyword rfl,terminal_of_reserved .thenKeyword rfl,ihc hc,iha ha,
      ihr hr,terminals]
  | loop body rest ihb ihr =>
    obtain ⟨hb,hr⟩ := List.forall_mem_append.mp h
    simp only [spelling,List.map_cons,List.map_append,terminal_of_reserved .doKeyword rfl,
      terminal_of_reserved .loopKeyword rfl,ihb hb,ihr hr,terminals]

private theorem word_mem_terminals {program : Program} {name : String} (h : name ∈ program.names) :
    Terminal.word name ∈ program.terminals := by
  induction program <;> simp_all [names,terminals] <;> tauto

/-- A printable program reads back from its text. -/
theorem Printable.ofSource_render {program : Program} (h : program.Printable) :
    ofSource program.render = .ok program := by
  rw [ofSource,ofTokens_iff]
  change (Token.scan program.render).map (Terminal.ofLiteral ∘ Token.literal) = _
  rw [← List.map_map,render,Token.map_literal_scan_intercalate h.spelling_runs,
    h.map_ofLiteral_spelling]

/-- Whatever is read from a text has words for names. -/
theorem printable_of_ofSource {source : String} {program : Program}
    (h : ofSource source = .ok program) : program.Printable := by
  intro name hm
  have ht := word_mem_terminals hm
  rw [← ofTokens_iff.mp h] at ht
  obtain ⟨token,hs,he⟩ := List.mem_map.mp ht
  obtain ⟨hk,rfl⟩ := (token.terminal_eq_word_iff name).mp he
  exact ⟨Token.isRun_of_mem_scan hs,hk⟩

/-- Rendering and reading are inverse on exactly the printable programs, and every program that
was read from a text is one of them. -/
theorem ofSource_render_exact :
    (∀ program : Program, ofSource program.render = .ok program ↔ program.Printable) ∧
    (∀ (source : String) (program : Program), ofSource source = .ok program →
      program.Printable ∧ ofSource program.render = .ok program) := by
  refine ⟨?_,?_⟩
  · intro program
    exact ⟨printable_of_ofSource,Printable.ofSource_render⟩
  · intro source program h
    have hp := printable_of_ofSource h
    exact ⟨hp,hp.ofSource_render⟩

/-- Empty bodies, an empty alternative, a nested definition and the least value survive. -/
theorem ofSource_render_nested :
    let source := ": a : b ;\n  if else then -09223372036854775808 ; do loop"
    let program := define "a"
      (define "b" nil (ifElse nil nil (push (-9223372036854775808) nil))) (loop nil nil)
    ofSource source = .ok program ∧ program.Printable ∧ ofSource program.render = .ok program := by
  intro source program
  have h : ofSource source = .ok program := by decide
  exact ⟨h,ofSource_render_exact.2 source program h⟩

example : ¬ (call "then" nil).Printable ∧ ¬ (declare "-7" nil).Printable := by decide

end NandStack.Program
