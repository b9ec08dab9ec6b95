import NandStack.Proofs.Machine.Operands
import NandStack.Proofs.Machine.Sequence
import NandStack.Proofs.Program.RoundTrip
import NandStack.Proofs.Scopes

/-!
Factoring: a run of nodes may be moved into a word of its own. What the program that calls the word
finishes with, the program with the run in place of the call finishes with as well. Only this
direction holds at every depth limit, as the word is one more call.
-/

namespace NandStack

namespace Program

/-- A program with a gap between its nodes, at the top or in a body at any depth. -/
inductive Context where
  | here (before after : Program)
  | define (before : Program) (name : String) (body : Context) (after : Program)
  | ifThen (before : Program) (consequence : Context) (after : Program)
  | ifElseFirst (before : Program) (consequence : Context) (alternative after : Program)
  | ifElseSecond (before consequence : Program) (alternative : Context) (after : Program)
  | loop (before : Program) (body : Context) (after : Program)

/-- Puts a run of nodes into the gap. -/
def Context.fill : Context → Program → Program
  | here before after, part => before.append (part.append after)
  | define before name body after, part => before.append (.define name (body.fill part) after)
  | ifThen before consequence after, part => before.append (.ifThen (consequence.fill part) after)
  | ifElseFirst before consequence alternative after, part =>
    before.append (.ifElse (consequence.fill part) alternative after)
  | ifElseSecond before consequence alternative after, part =>
    before.append (.ifElse consequence (alternative.fill part) after)
  | loop before body after, part => before.append (.loop (body.fill part) after)

/-- The second program is the first one, or it has a run of nodes where that one calls a word. -/
def WrittenOut (word : String) (part factored whole : Program) : Prop :=
  factored = whole ∨
    ∃ context : Context, factored = context.fill (.call word .nil) ∧ whole = context.fill part

private theorem names_append (first second : Program) :
    (first.append second).names = first.names ++ second.names := by
  induction first with
  | nil => rfl
  | push | call | define | declare | ifThen | ifElse | loop =>
    simp_all only [append,names,List.cons_append,List.append_assoc]

private theorem Context.mem_names_fill {context : Context} {part : Program} {name : String}
    (h : name ∈ part.names) : name ∈ (context.fill part).names := by
  induction context with
  | here before after => simp [fill,names_append,h]
  | define | ifThen | ifElseFirst | ifElseSecond | loop =>
    rename_i ih
    simp [fill,names_append,names,ih]

end Program

namespace Machine

structure Lacks (machine : Machine) (word : String) : Prop where
  undefined : machine.dictionary.find? word = none
  unused : ∀ name body, machine.dictionary.find? name = some body → word ∉ body.names

def beside (dictionary : NameTable Program) (depth : Nat) (machine : Machine) : Machine :=
  { machine with dictionary := dictionary, depth := depth }

/-- The first dictionary has the word and may call it where the second one, which knows nothing of
the word, has its body. No frame hides the word. -/
structure Factored (word : String) (part : Program) (factored whole : NameTable Program)
    (scopes : Scopes) : Prop where
  defined : factored.find? word = some part
  undefined : whole.find? word = none
  bodies : ∀ name, name ≠ word →
    Option.Rel (Program.WrittenOut word part) (factored.find? name) (whole.find? name)
  unused : ∀ name body, whole.find? name = some body → word ∉ body.names
  only : scopes.Only loopIndex

private theorem Factored.scoped {word : String} {part : Program} {factored whole : NameTable Program}
    {scopes other : Scopes} (h : Factored word part factored whole scopes)
    (ho : other.Only loopIndex) : Factored word part factored whole other :=
  ⟨h.defined,h.undefined,h.bodies,h.unused,ho⟩

/-- Whatever the first function finishes with, the second one finishes with too, but for the words
and the depth, when it starts beside it. -/
def Covers (word : String) (part : Program) (f g : Machine → Outcome Fault) : Prop :=
  ∀ machine dictionary depth after,
    Factored word part machine.dictionary dictionary machine.scopes →
    f machine = .finished after →
    ∃ words levels, g (machine.beside dictionary depth) = .finished (after.beside words levels) ∧
      Factored word part after.dictionary words after.scopes

section
variable {word : String} {part : Program}

namespace Covers
variable {f g next other : Machine → Outcome Fault}

private theorem finished : Covers word part .finished .finished := by
  intro machine dictionary depth after hk he
  cases he
  exact ⟨dictionary,depth,rfl,hk⟩

private theorem andThen (h : Covers word part f g) (hn : Covers word part next other) :
    Covers word part (fun machine => (f machine).andThen next)
      (fun machine => (g machine).andThen other) := by
  intro machine dictionary depth after hk he
  obtain ⟨between,hf,he⟩ := Outcome.finished_of_andThen he
  obtain ⟨words,levels,hg,hb⟩ := h machine dictionary depth between hk hf
  obtain ⟨words',levels',ho,ha⟩ := hn between words levels after hb he
  refine ⟨words',levels',?_,ha⟩
  simp only [hg]
  exact ho

private theorem deeper_left (h : Covers word part f g) :
    Covers word part (fun machine => (f { machine with depth := machine.depth + 1 }).mapMachine
      fun machine => { machine with depth := machine.depth - 1 }) g := by
  intro machine dictionary depth after hk he
  obtain ⟨inner,hf,rfl⟩ := Outcome.finished_of_mapMachine he
  exact h { machine with depth := machine.depth + 1 } dictionary depth inner hk hf

private theorem deeper_right (h : Covers word part f g) :
    Covers word part f fun machine =>
      (g { machine with depth := machine.depth + 1 }).mapMachine
        fun machine => { machine with depth := machine.depth - 1 } := by
  intro machine dictionary depth after hk he
  obtain ⟨words,levels,hg,ha⟩ := h machine dictionary (depth + 1) after hk he
  refine ⟨words,levels - 1,?_,ha⟩
  change (g (machine.beside dictionary (depth + 1))).mapMachine _ = _
  rw [hg]
  rfl

private theorem branch {onTrue onFalse onTrue' onFalse' : Machine → Outcome Fault}
    (ht : Covers word part onTrue onTrue') (hf : Covers word part onFalse onFalse') :
    Covers word part (Machine.branch onTrue onFalse) (Machine.branch onTrue' onFalse') := by
  intro machine dictionary depth after hk he
  rcases machine with ⟨_,_,_,_,_ | ⟨flag,below⟩,_,_,_,_,_,_⟩
  · cases he
    exact ⟨dictionary,depth,rfl,hk⟩
  · by_cases hz : flag = 0
    · simp only [Machine.branch,beside,if_pos hz] at he ⊢
      exact hf ⟨_,_,_,_,below,_,_,_,_,_,_⟩ dictionary depth after hk he
    · simp only [Machine.branch,beside,if_neg hz] at he ⊢
      exact ht ⟨_,_,_,_,below,_,_,_,_,_,_⟩ dictionary depth after hk he

private theorem iterate (h : Covers word part f g) (count : Nat) (index : Int64) :
    Covers word part (Machine.iterate f count index) (Machine.iterate g count index) := by
  induction count generalizing index with
  | zero => exact finished
  | succ count ih =>
    have hs : Covers word part
        (fun machine => f { machine with scopes := machine.scopes.set loopIndex index })
        (fun machine => g { machine with scopes := machine.scopes.set loopIndex index }) := by
      intro machine dictionary depth after hk he
      exact h { machine with scopes := machine.scopes.set loopIndex index } dictionary depth after
        (hk.scoped (hk.only.set loopIndex index)) he
    exact hs.andThen (ih (index + 1))

private theorem countedLoop (h : Covers word part f g) :
    Covers word part (Machine.countedLoop f) (Machine.countedLoop g) := by
  intro machine dictionary depth after hk he
  rcases machine with ⟨_,_,_,scopes,_ | ⟨limit,_ | ⟨start,below⟩⟩,_,_,_,_,_,_⟩
  · cases he
    exact ⟨dictionary,depth,rfl,hk⟩
  · cases he
    exact ⟨dictionary,depth,rfl,hk⟩
  · obtain ⟨inner,hi,rfl⟩ := Outcome.finished_of_mapMachine he
    obtain ⟨words,levels,hg,ha⟩ := h.iterate (distance start limit) start
      ⟨_,_,_,scopes.enclose loopIndex start,below,_,_,_,_,_,_⟩ dictionary depth inner
      (hk.scoped (hk.only.enclose start)) hi
    refine ⟨words,levels,?_,ha.scoped ha.only.unenclose⟩
    exact congrArg (Outcome.mapMachine fun machine =>
      { machine with scopes := machine.scopes.unenclose }) hg

end Covers

private theorem Factored.define {factored whole : NameTable Program} {scopes : Scopes} {name : String}
    {body body' : Program} (h : Factored word part factored whole scopes) (hn : name ≠ word)
    (hb : Program.WrittenOut word part body body') (hu : word ∉ body'.names) :
    Factored word part (factored.insert name body) (whole.insert name body') scopes where
  defined := by rw [NameTable.find?_insert,if_neg hn.symm,h.defined]
  undefined := by rw [NameTable.find?_insert,if_neg hn.symm,h.undefined]
  bodies := by
    intro query hq
    rw [NameTable.find?_insert,NameTable.find?_insert]
    split
    · exact .some hb
    · exact h.bodies query hq
  unused := by
    intro query held hf
    rw [NameTable.find?_insert] at hf
    split at hf
    · cases hf
      exact hu
    · exact h.unused query held hf
  only := h.only

def CoversBodies (word : String) (part : Program) (enter other : Program → Machine → Outcome Fault) : Prop :=
  ∀ body body', Program.WrittenOut word part body body' → word ∉ body'.names →
    Covers word part (enter body) (other body')

variable {enter other : Program → Machine → Outcome Fault}

private theorem covers_call (he : CoversBodies word part enter other) {name : String} (hn : name ≠ word) :
    Covers word part (fun machine => machine.call enter name)
      (fun machine => machine.call other name) := by
  intro machine dictionary depth after hk hf
  cases hp : Primitive.ofName? name with
  | some primitive =>
    simp only [call,hp] at hf ⊢
    cases hf
    refine ⟨dictionary,depth,?_,?_⟩
    · rw [primitive_change (beside dictionary depth) (fun _ _ => rfl)]
    · rw [← amid_primitive]
      exact hk
  | none =>
    cases hs : machine.scopes.get? name with
    | some value =>
      simp only [call,beside,hp,hs] at hf ⊢
      cases hf
      exact ⟨dictionary,depth,rfl,hk⟩
    | none =>
      have hr := hk.bodies name hn
      cases hd : machine.dictionary.find? name with
      | some body =>
        rw [hd] at hr
        generalize hw : dictionary.find? name = found at hr
        cases hr with
        | some hb =>
          simp only [call,beside,hp,hs,hd,hw] at hf ⊢
          exact he _ _ hb (hk.unused name _ hw) machine dictionary depth after hk hf
      | none =>
        rw [hd] at hr
        generalize hw : dictionary.find? name = found at hr
        cases hr
        cases hv : machine.variables.find? name <;>
          simp only [call,beside,hp,hs,hd,hw,hv] at hf ⊢ <;>
          cases hf <;> exact ⟨dictionary,depth,rfl,hk⟩

private theorem covers_run (he : CoversBodies word part enter other) {program : Program}
    (hu : word ∉ program.names) : Covers word part (run enter program) (run other program) := by
  induction program with
  | nil => exact .finished
  | push value rest ih =>
    intro machine dictionary depth after hk hf
    exact ih hu (machine.push value) dictionary depth after hk hf
  | call name rest ih =>
    simp only [Program.names,List.mem_cons,not_or] at hu
    exact (covers_call he (Ne.symm hu.1)).andThen (ih hu.2)
  | define name body rest _ ih =>
    simp only [Program.names,List.mem_cons,List.mem_append,not_or] at hu
    intro machine dictionary depth after hk hf
    exact ih hu.2.2 (machine.define name body) (dictionary.insert name body) depth after
      (hk.define (Ne.symm hu.1) (.inl rfl) hu.2.1) hf
  | declare name rest ih =>
    simp only [Program.names,List.mem_cons,not_or] at hu
    intro machine dictionary depth after hk hf
    exact ih hu.2 (machine.declare name) dictionary depth after hk hf
  | ifThen consequence rest ihc ih =>
    simp only [Program.names,List.mem_append,not_or] at hu
    exact ((ihc hu.1).branch .finished).andThen (ih hu.2)
  | ifElse consequence alternative rest ihc iha ih =>
    simp only [Program.names,List.mem_append,not_or] at hu
    exact ((ihc hu.1).branch (iha hu.2.1)).andThen (ih hu.2.2)
  | loop body rest ihb ih =>
    simp only [Program.names,List.mem_append,not_or] at hu
    exact (ihb hu.1).countedLoop.andThen (ih hu.2)

private theorem covers_append {first first' second second' : Program}
    (hf : Covers word part (run enter first) (run other first'))
    (hs : Covers word part (run enter second) (run other second')) :
    Covers word part (run enter (first.append second)) (run other (first'.append second')) := by
  have h := hf.andThen hs
  intro machine dictionary depth after hk he
  rw [run_append] at he ⊢
  exact h machine dictionary depth after hk he

private theorem covers_word (hp : Primitive.ofName? word = none) (hi : word ≠ loopIndex)
    (hw : Covers word part (enter part) (run other part)) :
    Covers word part (run enter (.call word .nil)) (run other part) := by
  intro machine dictionary depth after hk hf
  obtain ⟨between,hc,hn⟩ := Outcome.finished_of_andThen hf
  cases hn
  simp only [call,hp,hk.only.get?_eq_none hi,hk.defined] at hc
  exact hw machine dictionary depth after hk hc

private theorem covers_fill (hp : Primitive.ofName? word = none) (hi : word ≠ loopIndex)
    (he : CoversBodies word part enter other) (hw : Covers word part (enter part) (run other part))
    {context : Program.Context} (hu : word ∉ (context.fill part).names) :
    Covers word part (run enter (context.fill (.call word .nil))) (run other (context.fill part)) := by
  -- The induction is on the place of the gap; around it stand equal programs.
  induction context with
  | here before after =>
    simp only [Program.Context.fill,Program.names_append,List.mem_append,not_or] at hu
    exact covers_append (covers_run he hu.1)
      (covers_append (covers_word hp hi hw) (covers_run he hu.2.2))
  | define before name body after ih =>
    simp only [Program.Context.fill,Program.names_append,Program.names,List.mem_append,List.mem_cons,
      not_or] at hu
    refine covers_append (covers_run he hu.1) ?_
    intro machine dictionary depth final hk hf
    exact covers_run he hu.2.2.2 (machine.define name _) (dictionary.insert name (body.fill part)) depth
      final (hk.define (Ne.symm hu.2.1) (.inr ⟨body,rfl,rfl⟩) hu.2.2.1) hf
  | ifThen before consequence after ih =>
    simp only [Program.Context.fill,Program.names_append,Program.names,List.mem_append,not_or] at hu
    exact covers_append (covers_run he hu.1)
      (((ih hu.2.1).branch .finished).andThen (covers_run he hu.2.2))
  | ifElseFirst before consequence alternative after ih =>
    simp only [Program.Context.fill,Program.names_append,Program.names,List.mem_append,not_or] at hu
    exact covers_append (covers_run he hu.1)
      (((ih hu.2.1).branch (covers_run he hu.2.2.1)).andThen (covers_run he hu.2.2.2))
  | ifElseSecond before consequence alternative after ih =>
    simp only [Program.Context.fill,Program.names_append,Program.names,List.mem_append,not_or] at hu
    exact covers_append (covers_run he hu.1)
      (((covers_run he hu.2.1).branch (ih hu.2.2.1)).andThen (covers_run he hu.2.2.2))
  | loop before body after ih =>
    simp only [Program.Context.fill,Program.names_append,Program.names,List.mem_append,not_or] at hu
    exact covers_append (covers_run he hu.1) ((ih hu.2.1).countedLoop.andThen (covers_run he hu.2.2))

private theorem covers_writtenOut (hp : Primitive.ofName? word = none) (hi : word ≠ loopIndex)
    (he : CoversBodies word part enter other) (hw : Covers word part (enter part) (run other part))
    {factored whole : Program} (hb : Program.WrittenOut word part factored whole)
    (hu : word ∉ whole.names) : Covers word part (run enter factored) (run other whole) := by
  rcases hb with rfl | ⟨context,rfl,rfl⟩
  · exact covers_run he hu
  · exact covers_fill hp hi he hw hu

private theorem covers_runWithin (hp : Primitive.ofName? word = none) (hi : word ≠ loopIndex)
    (hn : word ∉ part.names) {fewer more : Nat} (hl : fewer ≤ more) {factored whole : Program}
    (hb : Program.WrittenOut word part factored whole) (hu : word ∉ whole.names) :
    Covers word part (runWithin fewer factored) (runWithin more whole) := by
  -- The induction is on the levels of the factored program: within the word it has one less, and
  -- the other program, which enters no such word, has at least as many.
  simp only [runWithin_eq_run]
  induction fewer generalizing more factored whole with
  | zero =>
    have never (body : Program) (g : Machine → Outcome Fault) :
        Covers word part (enterWithin 0 body) g := by
      intro machine dictionary depth after _ he
      cases he
    exact covers_writtenOut hp hi (fun body _ _ _ => never body _) (never part _) hb hu
  | succ fewer ih =>
    obtain ⟨more,rfl⟩ : ∃ least, more = least + 1 := ⟨more - 1,by omega⟩
    refine covers_writtenOut hp hi ?_ ?_ hb hu
    · intro body body' hb' hu'
      have h := ih (Nat.le_of_succ_le_succ hl) hb' hu'
      rw [← runWithin_eq_run,← runWithin_eq_run] at h
      exact h.deeper_left.deeper_right
    · have h := ih (Nat.le_of_succ_le hl) (.inl rfl) hn
      rw [← runWithin_eq_run fewer] at h
      exact h.deeper_left

end

/-- Factoring keeps the meaning of a program. If a run of nodes is made the body of a word that is
new, and the program that calls the word instead finishes, then the program itself finishes on the
same machine but for the dictionary. That knows nothing of the word, and each other name has the same
body, or the body with the run of nodes in the place of the call. -/
theorem factoring_keeps_meaning {machine after : Machine} {word : String} {part : Program}
    {context : Program.Context} (hp : Primitive.ofName? word = none) (hi : word ≠ loopIndex)
    (hu : word ∉ (context.fill part).names) (hm : machine.Lacks word)
    (hs : machine.scopes.Only loopIndex)
    (he : machine.evaluate (.define word part (context.fill (.call word .nil))) = .finished after) :
    ∃ dictionary, let whole : Machine := { after with dictionary := dictionary }
      machine.evaluate (context.fill part) = .finished whole ∧
      after.dictionary.find? word = some part ∧ whole.Lacks word ∧
      ∀ name, name ≠ word → Option.Rel (Program.WrittenOut word part)
        (after.dictionary.find? name) (whole.dictionary.find? name) := by
  have hn : word ∉ part.names := fun h => hu (Program.Context.mem_names_fill h)
  have hf : Factored word part (machine.define word part).dictionary machine.dictionary
      machine.scopes := by
    refine ⟨?_,hm.undefined,?_,hm.unused,hs⟩
    · rw [define,NameTable.find?_insert,if_pos rfl]
    · intro name hw
      rw [define,NameTable.find?_insert,if_neg hw]
      cases machine.dictionary.find? name with
      | none => exact .none
      | some body => exact .some (.inl rfl)
  have hc := covers_runWithin hp hi hn (Nat.le_refl (machine.maxDepth - machine.depth))
    (.inr ⟨context,rfl,rfl⟩) hu
  have hr : runWithin (machine.maxDepth - machine.depth) (context.fill (.call word .nil))
      (machine.define word part) = .finished after := by
    rw [evaluate,runWithin_eq_run] at he
    rw [runWithin_eq_run]
    exact he
  obtain ⟨words,levels,hw,ha⟩ := hc (machine.define word part) machine.dictionary machine.depth after
    hf hr
  change machine.evaluate (context.fill part) = _ at hw
  -- Both evaluations leave the depth that they found.
  have hd : levels = after.depth := by
    have hb := (unwound_evaluate machine (context.fill part)).depth
    have hb' := (unwound_evaluate machine (.define word part (context.fill (.call word .nil)))).depth
    rw [hw] at hb
    rw [he] at hb'
    exact hb.trans hb'.symm
  subst hd
  exact ⟨words,hw,ha.defined,⟨ha.undefined,ha.unused⟩,ha.bodies⟩

/-- The body of a word that is called in a loop is moved into another word: the index is found from
one call deeper, and the stored bodies differ. -/
theorem factoring_keeps_meaning_in_word :
    let part := Program.call "i" (.call "." .nil)
    let context := Program.Context.define .nil "g" (.here .nil (.push 7 (.call "drop" .nil)))
      (.push 0 (.push 2 (.loop (.call "g" .nil) .nil)))
    let machine := blank ⟨#[]⟩ .unlimited 2
    let factored := machine.evaluate (.define "w" part (context.fill (.call "w" .nil)))
    ∃ dictionary, machine.evaluate (context.fill part) =
        .finished { factored.machine with dictionary := dictionary } ∧
      factored.machine.sink.written = "0\n1\n" ∧
      Option.Rel (Program.WrittenOut "w" part) (factored.machine.dictionary.find? "g")
        (dictionary.find? "g") ∧
      factored.machine.dictionary.find? "g" = some (.call "w" (.push 7 (.call "drop" .nil))) := by
  intro part context machine factored
  have hm : machine.Lacks "w" := ⟨rfl,nofun⟩
  have he : factored = .finished factored.machine := Outcome.eq_finished (by decide +kernel)
  obtain ⟨dictionary,hw,-,-,hb⟩ := factoring_keeps_meaning rfl (by decide) (by decide) hm nofun he
  exact ⟨dictionary,hw,by decide +kernel,hb "g" (by decide),by decide +kernel⟩

end Machine

end NandStack
