import Mathlib.Data.List.Induction
import Mathlib.Data.List.TakeWhile
import NandStack.Token

/-!
Runs: the tokens of a text are its maximal runs of characters other than delimiters, every run once
and in order. A token has the characters of its run, and its place is reckoned from the text before.
-/

namespace NandStack

def Position.past (text : List Char) : Position :=
  text.foldl Position.after .start

namespace Position

private theorem past_concat (text : List Char) (character : Char) :
    past (text ++ [character]) = (past text).after character := by
  unfold past
  rw [List.foldl_append]
  rfl

private theorem past_eq (text : List Char) :
    past text = ⟨1 + text.count '\n', 1 + (text.reverse.takeWhile (· ≠ '\n')).length⟩ := by
  induction text using List.reverseRecOn with
  | nil => rfl
  | append_singleton text character ih =>
    rw [past_concat,ih,after]
    by_cases hc : character = '\n'
    · simp [hc,Nat.add_assoc]
    · simp [hc,Nat.add_assoc]

/-- Up to the first line feed only the column counts on. -/
theorem past_of_not_mem {text : List Char} (h : '\n' ∉ text) : past text = ⟨1, text.length + 1⟩ := by
  have hw : text.reverse.takeWhile (· ≠ '\n') = text.reverse := by
    apply List.takeWhile_eq_self_iff.mpr
    intro character hm
    exact decide_eq_true fun hc => h (hc ▸ List.mem_reverse.mp hm)
  rw [past_eq,hw,List.count_eq_zero_of_not_mem h,List.length_reverse]
  exact congrArg (Position.mk 1) (Nat.add_comm 1 _)

/-- The place of an index of a text: the line feeds before it give the line, and what stands behind
the last of them, or behind the start, gives the column. -/
def ofIndex (text : List Char) (index : Nat) : Position :=
  let before := text.take index
  ⟨1 + before.count '\n', 1 + (before.reverse.takeWhile (· ≠ '\n')).length⟩

theorem ofIndex_eq_past (text : List Char) (index : Nat) :
    ofIndex text index = past (text.take index) :=
  (past_eq (text.take index)).symm

/-- In a line further up, or further to the left in the same line. -/
def Before (first second : Position) : Prop :=
  first.line < second.line ∨ first.line = second.line ∧ first.column < second.column

private theorem Before.trans {first second third : Position} (h : first.Before second)
    (ht : second.Before third) : first.Before third := by
  unfold Before at *
  omega

theorem Before.ne {first second : Position} (h : first.Before second) : first ≠ second := by
  rintro rfl
  unfold Before at h
  omega

private theorem before_after (position : Position) (character : Char) :
    position.Before (position.after character) := by
  unfold after
  split
  · exact .inl (Nat.lt_add_one position.line)
  · exact .inr ⟨rfl,Nat.lt_add_one position.column⟩

private theorem before_foldl_after (position : Position) {more : List Char} (h : more ≠ []) :
    position.Before (more.foldl after position) := by
  induction more generalizing position with
  | nil => exact absurd rfl h
  | cons character rest ih =>
    have hc := position.before_after character
    by_cases hr : rest = []
    · rw [hr]
      exact hc
    · exact hc.trans (ih (position.after character) hr)

private theorem ofIndex_before {text : List Char} {first second : Nat} (h : first < second)
    (hs : second ≤ text.length) : (ofIndex text first).Before (ofIndex text second) := by
  obtain ⟨more,hm⟩ := List.take_prefix_take_left (l := text) (Nat.le_of_lt h)
  have hn : more ≠ [] := by
    rintro rfl
    have hl := congrArg List.length hm
    simp only [List.append_nil,List.length_take] at hl
    omega
  rw [ofIndex_eq_past,ofIndex_eq_past,← hm,past,past,List.foldl_append]
  exact before_foldl_after _ hn

end Position

namespace Token

def delimiters : List Char := [' ', '\t', '\r', '\n']

private theorem isBlank_iff (character : Char) : isBlank character ↔ character ∈ delimiters := by
  simp [isBlank,delimiters,or_assoc]

def DelimitedAt (text : List Char) (index : Nat) : Prop :=
  ∃ character ∈ delimiters, text[index]? = some character

/-- The characters of a text from one index up to but not including another. -/
structure Span where
  start : Nat
  stop : Nat
  deriving DecidableEq, Repr

namespace Span

/-- The span holds one character at least and no delimiter, and cannot be made longer at either end. -/
structure Maximal (text : List Char) (span : Span) : Prop where
  start_lt : span.start < span.stop
  stop_le : span.stop ≤ text.length
  solid : ∀ index, span.start ≤ index → index < span.stop → ¬ DelimitedAt text index
  start_eq : span.start = 0 ∨ DelimitedAt text (span.start - 1)
  stop_eq : span.stop = text.length ∨ DelimitedAt text span.stop

def token (text : List Char) (span : Span) : Token :=
  ⟨String.ofList ((text.take span.stop).drop span.start), .ofIndex text span.start⟩

variable {text : List Char} {first second : Span}

private theorem Maximal.start_le (h : first.Maximal text) (hs : second.Maximal text)
    (ht : second.start ≤ first.stop) : second.start ≤ first.start := by
  refine Nat.le_of_not_lt ?_
  intro hl
  rcases hs.start_eq with hz | hd
  · omega
  · exact h.solid (second.start - 1) (by omega) (by omega) hd

private theorem Maximal.stop_le_stop (h : first.Maximal text) (hs : second.Maximal text)
    (he : first.start = second.start) : second.stop ≤ first.stop := by
  refine Nat.le_of_not_lt ?_
  intro hl
  rcases h.stop_eq with hn | hd
  · have hb := hs.stop_le
    omega
  · have hp := h.start_lt
    exact hs.solid first.stop (by omega) (by omega) hd

private theorem Maximal.eq_of_touching (h : first.Maximal text) (hs : second.Maximal text)
    (hf : first.start ≤ second.stop) (ht : second.start ≤ first.stop) : first = second := by
  have he : first.start = second.start := Nat.le_antisymm (hs.start_le h hf) (h.start_le hs ht)
  have hl : first.stop = second.stop :=
    Nat.le_antisymm (hs.stop_le_stop h he.symm) (h.stop_le_stop hs he)
  cases first
  cases second
  cases he
  cases hl
  rfl

end Span

private theorem DelimitedAt.append {text : List Char} {index : Nat} (h : DelimitedAt text index)
    (rest : List Char) : DelimitedAt (text ++ rest) index := by
  obtain ⟨character,hc,hi⟩ := h
  have hl := (List.getElem?_eq_some_iff.mp hi).1
  exact ⟨character,hc,(List.getElem?_append_left hl).trans hi⟩

private theorem delimitedAt_append_iff (front rest : List Char) (index : Nat) :
    DelimitedAt (front ++ rest) (front.length + index) ↔ DelimitedAt rest index := by
  simp [DelimitedAt,List.getElem?_append_right]

private theorem not_delimitedAt_append {run : List Char} (h : ∀ character ∈ run, character ∉ delimiters)
    (rest : List Char) {index : Nat} (hi : index < run.length) :
    ¬ DelimitedAt (run ++ rest) index := by
  rintro ⟨character,hc,he⟩
  rw [List.getElem?_append_left hi] at he
  exact h character (List.mem_of_getElem? he) hc

/-- The spans are all maximal ones that begin at an index or behind it, in order, and the tokens are
theirs. -/
structure Account (text : List Char) (index : Nat) (spans : List Span) (tokens : List Token) : Prop where
  mem_iff : ∀ span, span ∈ spans ↔ span.Maximal text ∧ index ≤ span.start
  ordered : spans.Pairwise fun first second => first.stop < second.start
  covers : ∀ place, index ≤ place → place < text.length → ¬ DelimitedAt text place →
    ∃ span ∈ spans, span.start ≤ place ∧ place < span.stop
  tokens_eq : tokens = spans.map (Span.token text)

namespace Account

variable {text : List Char} {index : Nat} {spans : List Span} {tokens : List Token}

private theorem nil (text : List Char) : Account text text.length [] [] where
  mem_iff := by
    intro span
    simp only [List.not_mem_nil,false_iff]
    rintro ⟨hm,hl⟩
    have hp := hm.start_lt
    have hu := hm.stop_le
    omega
  ordered := .nil
  covers := fun place hl hu => absurd hl (Nat.not_le_of_lt hu)
  tokens_eq := rfl

private theorem widen (h : Account text (index + 1) spans tokens) (hd : DelimitedAt text index) :
    Account text index spans tokens where
  mem_iff := by
    intro span
    rw [h.mem_iff]
    refine and_congr_right fun hm => ⟨Nat.le_of_succ_le,fun hl => Nat.lt_of_le_of_ne hl ?_⟩
    rintro rfl
    exact hm.solid span.start (Nat.le_refl _) hm.start_lt hd
  ordered := h.ordered
  covers := by
    intro place hl hu hn
    refine h.covers place (Nat.lt_of_le_of_ne hl ?_) hu hn
    rintro rfl
    exact hn hd
  tokens_eq := h.tokens_eq

private theorem cons {span : Span} (hm : span.Maximal text) (h : Account text span.stop spans tokens) :
    Account text span.start (span :: spans) (span.token text :: tokens) where
  mem_iff := by
    intro other
    have hp := hm.start_lt
    rw [List.mem_cons,h.mem_iff]
    constructor
    · rintro (rfl | ⟨ho,hl⟩)
      · exact ⟨hm,Nat.le_refl _⟩
      · exact ⟨ho,by omega⟩
    · rintro ⟨ho,hl⟩
      have hq := ho.start_lt
      by_cases hs : span.stop ≤ other.start
      · exact .inr ⟨ho,hs⟩
      · exact .inl (ho.eq_of_touching hm (by omega) (by omega))
  ordered := by
    refine List.pairwise_cons.mpr ⟨?_,h.ordered⟩
    intro other ho
    obtain ⟨ho,hl⟩ := (h.mem_iff other).mp ho
    refine Nat.lt_of_le_of_ne hl ?_
    intro he
    have hp := hm.start_lt
    have hq := ho.start_lt
    have hs := hm.eq_of_touching ho (by omega) (by omega)
    rw [← hs] at he
    omega
  covers := by
    intro place hl hu hn
    by_cases hs : place < span.stop
    · exact ⟨span,List.mem_cons_self,hl,hs⟩
    · obtain ⟨other,ho,hp⟩ := h.covers place (by omega) hu hn
      exact ⟨other,List.mem_cons_of_mem _ ho,hp⟩
  tokens_eq := by rw [List.map_cons,h.tokens_eq]

end Account

section Run

variable {front run rest : List Char} {first : Position} {spans : List Span} {tokens : List Token}

private theorem maximal_of_run (hr : run ≠ []) (hs : ∀ character ∈ run, character ∉ delimiters)
    (hf : front = [] ∨ DelimitedAt front (front.length - 1)) (hn : rest = [] ∨ DelimitedAt rest 0) :
    Span.Maximal (front ++ (run ++ rest)) ⟨front.length, front.length + run.length⟩ where
  start_lt := Nat.lt_add_of_pos_right (List.length_pos_iff.mpr hr)
  stop_le := by
    simp only [List.length_append]
    omega
  solid := by
    intro index hl hu
    obtain ⟨offset,rfl⟩ := Nat.exists_eq_add_of_le hl
    rw [delimitedAt_append_iff]
    exact not_delimitedAt_append hs rest (Nat.lt_of_add_lt_add_left hu)
  start_eq := by
    rcases hf with rfl | hd
    · exact .inl rfl
    · exact .inr (hd.append _)
  stop_eq := by
    rcases hn with rfl | hd
    · left
      simp
    · right
      dsimp only
      rw [delimitedAt_append_iff,← Nat.add_zero run.length,delimitedAt_append_iff]
      exact hd

private theorem token_of_run (front run rest : List Char) :
    Span.token (front ++ (run ++ rest)) ⟨front.length, front.length + run.length⟩ =
      ⟨String.ofList run, .past front⟩ := by
  simp only [Span.token,Position.ofIndex_eq_past,List.take_length_add_append,List.take_left,List.drop_left]

private theorem account_ofRun (hp : run ≠ [] → first = .past front)
    (hs : ∀ character ∈ run, character ∉ delimiters)
    (hf : front = [] ∨ DelimitedAt front (front.length - 1)) (hn : rest = [] ∨ DelimitedAt rest 0)
    (h : Account (front ++ (run.reverse ++ rest)) (front.length + run.length) spans tokens) :
    ∃ all, Account (front ++ (run.reverse ++ rest)) front.length all (ofRun first run ++ tokens) := by
  by_cases hr : run = []
  · subst hr
    exact ⟨spans,h⟩
  · have hm := maximal_of_run (mt List.reverse_eq_nil_iff.mp hr)
      (fun character hc => hs character (List.mem_reverse.mp hc)) hf hn
    have ht := token_of_run front run.reverse rest
    rw [List.length_reverse] at hm ht
    have ho : ofRun first run = [⟨String.ofList run.reverse, .past front⟩] := by
      rw [ofRun,if_neg (by simpa using hr),hp hr]
    rw [ho,← ht]
    exact ⟨_,h.cons hm⟩

end Run

private theorem account_scanFrom (front run : List Char) {text : List Char} {here first : Position}
    (hh : here = .past (front ++ run.reverse)) (hp : run ≠ [] → first = .past front)
    (hs : ∀ character ∈ run, character ∉ delimiters)
    (hf : front = [] ∨ DelimitedAt front (front.length - 1)) :
    ∃ spans, Account (front ++ (run.reverse ++ text)) front.length spans
      (scanFrom here first run text) := by
  -- The induction is on the text that is left.
  induction text generalizing front run here first with
  | nil =>
    have hl : (front ++ (run.reverse ++ [])).length = front.length + run.length := by simp
    have hn := Account.nil (front ++ (run.reverse ++ []))
    rw [hl] at hn
    obtain ⟨spans,ha⟩ := account_ofRun hp hs hf (.inl rfl) hn
    rw [List.append_nil (ofRun first run)] at ha
    exact ⟨spans,ha⟩
  | cons character rest ih =>
    have hn : here.after character = .past (front ++ run.reverse ++ [character]) := by
      rw [Position.past_concat,hh]
    rw [scanFrom]
    by_cases hb : isBlank character
    · have hd : DelimitedAt (character :: rest) 0 := ⟨character,(isBlank_iff character).mp hb,rfl⟩
      have hw : DelimitedAt (front ++ (run.reverse ++ character :: rest))
          (front.length + run.length) := by
        rw [delimitedAt_append_iff,← List.length_reverse,← Nat.add_zero run.reverse.length,
          delimitedAt_append_iff]
        exact hd
      have hc : DelimitedAt (front ++ run.reverse ++ [character])
          ((front ++ run.reverse ++ [character]).length - 1) :=
        ⟨character,(isBlank_iff character).mp hb,by simp⟩
      obtain ⟨spans,ha⟩ := @ih (front ++ run.reverse ++ [character]) [] _ here
        (by simpa using hn) (by simp) (by simp) (.inr hc)
      have hr : Account (front ++ (run.reverse ++ character :: rest))
          (front.length + run.length + 1) spans (scanFrom (here.after character) here [] rest) := by
        simpa [Nat.add_assoc] using ha
      rw [if_pos hb]
      exact account_ofRun hp hs hf (.inr hd) (hr.widen hw)
    · have hc : ∀ other ∈ character :: run, other ∉ delimiters := by
        refine List.forall_mem_cons.mpr ⟨?_,hs⟩
        exact fun hm => hb ((isBlank_iff character).mpr hm)
      have hq : (if run.isEmpty then here else first) = .past front := by
        cases run with
        | nil => simpa using hh
        | cons held run => exact hp (List.cons_ne_nil held run)
      obtain ⟨spans,ha⟩ := ih front (character :: run) (by simpa using hn) (fun _ => hq) hc hf
      rw [if_neg hb]
      exact ⟨spans,by simpa using ha⟩

theorem account_scan (source : String) :
    ∃ spans, Account source.toList 0 spans (scan source) :=
  account_scanFrom [] [] rfl (by simp) (by simp) (.inl rfl)

private theorem Account.positions {text : List Char} {index : Nat} {spans : List Span} {tokens : List Token}
    (h : Account text index spans tokens) :
    tokens.Pairwise fun first second => first.position.Before second.position := by
  rw [h.tokens_eq,List.pairwise_map]
  refine h.ordered.imp_of_mem ?_
  intro first second hf hs hl
  have hf := ((h.mem_iff first).mp hf).1.start_lt
  have hs := ((h.mem_iff second).mp hs).1
  have hp := hs.start_lt
  have hu := hs.stop_le
  exact Position.ofIndex_before (by omega) (by omega)

/-- The places of tokens grow in the order of the tokens. -/
theorem positions_scan (source : String) :
    (scan source).Pairwise fun first second => first.position.Before second.position := by
  obtain ⟨spans,h⟩ := account_scan source
  exact h.positions

/-- Scanning finds every maximal run once, whole and where it is: the tokens are those of all maximal
spans of the text, in order, so that each character other than a delimiter lies in exactly one of
them, and the places of the tokens grow. -/
theorem tokens_are_maximal_runs (source : String) :
    ∃ spans : List Span,
      (∀ span, span ∈ spans ↔ span.Maximal source.toList) ∧
      (spans.Pairwise fun first second => first.stop < second.start) ∧
      scan source = spans.map (Span.token source.toList) ∧
      (∀ index character, source.toList[index]? = some character → character ∉ delimiters →
        ∃! span, span ∈ spans ∧ span.start ≤ index ∧ index < span.stop) ∧
      (scan source).Pairwise fun first second => first.position.Before second.position := by
  obtain ⟨spans,h⟩ := account_scan source
  refine ⟨spans,?_,h.ordered,h.tokens_eq,?_,h.positions⟩
  · intro span
    rw [h.mem_iff]
    exact and_iff_left (Nat.zero_le span.start)
  · intro index character hc hd
    have hn : ¬ DelimitedAt source.toList index := by
      rintro ⟨other,ho,hi⟩
      rw [hc] at hi
      cases hi
      exact hd ho
    obtain ⟨span,hm,hl,hu⟩ := h.covers index (Nat.zero_le index) (List.getElem?_eq_some_iff.mp hc).1 hn
    refine ⟨span,⟨hm,hl,hu⟩,?_⟩
    rintro other ⟨ho,hs,ht⟩
    have hm := ((h.mem_iff span).mp hm).1
    have ho := ((h.mem_iff other).mp ho).1
    exact ho.eq_of_touching hm (by omega) (by omega)

/-- Columns count a tab, a carriage return and a character of several bytes as one. A no-break space
does not end a run. -/
example : scan "λ\t→x\r\n\n  a\u00a0b" = [⟨"λ", ⟨1, 1⟩⟩, ⟨"→x", ⟨1, 3⟩⟩, ⟨"a\u00a0b", ⟨3, 3⟩⟩] := by
  decide

end Token

end NandStack
