import Mathlib.Data.List.Forall2
import NandStack.Proofs.Scopes

/-!
Scopes and their history: a frame is known by the number of the change that opened it. What a name
denotes follows from the changes alone: the value last written to the last opened of its frames that
are still open. Changes that close all they open, and nothing else, leave the frames of before as
they were.
-/

namespace NandStack.Scopes

inductive Change where
  | enclose (name : String) (value : Int64)
  | set (name : String) (value : Int64)
  | unenclose
  deriving DecidableEq, Repr

def change (scopes : Scopes) : Change → Scopes
  | .enclose name value => scopes.enclose name value
  | .set name value => scopes.set name value
  | .unenclose => scopes.unenclose

def run (scopes : Scopes) (changes : List Change) : Scopes :=
  changes.foldl change scopes

variable {changes : List Change} {time number : Nat} {name : String} {value : Int64}

def Opens (changes : List Change) (name : String) (number : Nat) : Prop :=
  ∃ value, changes[number]? = some (.enclose name value)

/-- The frame opened by the change of this number is open after the first `time` changes. Closing takes
the last opened of the open frames, so it spares a frame when a later one is open. -/
def OpenAt (changes : List Change) : Nat → Nat → Prop
  | 0, _ => False
  | time + 1, number =>
    match changes[time]? with
    | some (.enclose _ _) => number = time ∨ OpenAt changes time number
    | some .unenclose =>
      OpenAt changes time number ∧ ∃ later, number < later ∧ OpenAt changes time later
    | _ => OpenAt changes time number

structure InnermostAt (changes : List Change) (time : Nat) (name : String) (number : Nat) : Prop where
  opens : Opens changes name number
  isOpen : OpenAt changes time number
  last : ∀ later, number < later → Opens changes name later → ¬ OpenAt changes time later

/-- The change of this index gives the frame a value: it opens the frame, or it sets the frame's name
while no later frame of that name is open. -/
def Writes (changes : List Change) (index number : Nat) (value : Int64) : Prop :=
  match changes[index]? with
  | some (.enclose _ given) => index = number ∧ given = value
  | some (.set name given) => InnermostAt changes index name number ∧ given = value
  | _ => False

/-- Of the first `time` changes, the last one that gives the frame any value gives it this one. -/
def LastWritten (changes : List Change) (time number : Nat) (value : Int64) : Prop :=
  ∃ index, index < time ∧ Writes changes index number value ∧
    ∀ later, index < later → later < time → ∀ other, ¬ Writes changes later number other

private theorem Opens.name_eq {other : String} (h : Opens changes name number)
    (ho : Opens changes other number) : name = other := by
  obtain ⟨value,hv⟩ := h
  obtain ⟨held,hh⟩ := ho
  rw [hv] at hh
  cases hh
  rfl

private theorem OpenAt.lt (h : OpenAt changes time number) : number < time := by
  induction time with
  | zero => exact h.elim
  | succ time ih =>
    rw [OpenAt] at h
    split at h
    · rcases h with rfl | h
      · exact Nat.lt_succ_self _
      · exact Nat.lt_succ_of_lt (ih h)
    · exact Nat.lt_succ_of_lt (ih h.1)
    · exact Nat.lt_succ_of_lt (ih h)

private theorem InnermostAt.eq {other : Nat} (h : InnermostAt changes time name number)
    (ho : InnermostAt changes time name other) : number = other := by
  rcases Nat.lt_trichotomy number other with hl | he | hl
  · exact absurd ho.isOpen (h.last other hl ho.opens)
  · exact he
  · exact absurd h.isOpen (ho.last number hl h.opens)

private theorem writes_enclose (hm : changes[time]? = some (.enclose name value)) (number : Nat)
    (other : Int64) : Writes changes time number other ↔ time = number ∧ value = other := by
  rw [Writes,hm]

private theorem writes_set (hm : changes[time]? = some (.set name value)) (number : Nat) (other : Int64) :
    Writes changes time number other ↔ InnermostAt changes time name number ∧ value = other := by
  rw [Writes,hm]

private theorem not_writes_unenclose (hm : changes[time]? = some .unenclose) (number : Nat) (other : Int64) :
    ¬ Writes changes time number other := by
  rw [Writes,hm]
  exact not_false

private theorem Writes.value_eq {index : Nat} {other : Int64} (h : Writes changes index number value)
    (ho : Writes changes index number other) : value = other := by
  cases hm : changes[index]? with
  | none =>
    rw [Writes,hm] at h
    exact h.elim
  | some made =>
    cases made with
    | enclose name given =>
      rw [writes_enclose hm] at h ho
      exact h.2.symm.trans ho.2
    | set name given =>
      rw [writes_set hm] at h ho
      exact h.2.symm.trans ho.2
    | unenclose => exact absurd h (not_writes_unenclose hm number value)

private theorem LastWritten.value_eq {other : Int64} (h : LastWritten changes time number value)
    (ho : LastWritten changes time number other) : value = other := by
  obtain ⟨first,hf,hw,hn⟩ := h
  obtain ⟨second,hs,hv,hm⟩ := ho
  rcases Nat.lt_trichotomy first second with hl | rfl | hl
  · exact absurd hv (hn second hl hs other)
  · exact hw.value_eq hv
  · exact absurd hw (hm first hl hf value)

private theorem LastWritten.of_writes (h : Writes changes time number value) :
    LastWritten changes (time + 1) number value :=
  ⟨time,Nat.lt_succ_self time,h,fun _ hl hu => absurd hl (Nat.not_lt_of_le (Nat.le_of_lt_succ hu))⟩

private theorem LastWritten.succ (h : LastWritten changes time number value)
    (hn : ∀ other, ¬ Writes changes time number other) :
    LastWritten changes (time + 1) number value := by
  obtain ⟨index,hi,hw,hl⟩ := h
  refine ⟨index,Nat.lt_succ_of_lt hi,hw,?_⟩
  intro later hb hu
  rcases Nat.lt_succ_iff_lt_or_eq.mp hu with hu | rfl
  · exact hl later hb hu
  · exact hn

structure Holds (changes : List Change) (time number : Nat) (frame : String × Int64) : Prop where
  opens : Opens changes frame.1 number
  isOpen : OpenAt changes time number
  written : LastWritten changes time number frame.2

/-- The frames, innermost first, are those that the history leaves open, and the numbers are those of
the changes that opened them. -/
structure Tracked (changes : List Change) (time : Nat) (numbers : List Nat)
    (frames : List (String × Int64)) : Prop where
  ordered : numbers.Pairwise (· > ·)
  mem_iff : ∀ number, number ∈ numbers ↔ OpenAt changes time number
  holds : List.Forall₂ (Holds changes time) numbers frames

private theorem Holds.succ {frame : String × Int64} (h : Holds changes time number frame)
    (ho : OpenAt changes (time + 1) number) (hn : ∀ other, ¬ Writes changes time number other) :
    Holds changes (time + 1) number frame :=
  ⟨h.opens,ho,h.written.succ hn⟩

def Covers (changes : List Change) (time : Nat) (name : String) (numbers : List Nat) : Prop :=
  ∀ number, Opens changes name number → OpenAt changes time number → number ∈ numbers

namespace Covers

variable {older : List Nat}

private theorem innermostAt (h : Covers changes time name (number :: older))
    (hl : ∀ earlier ∈ older, earlier < number) (hp : Opens changes name number)
    (ho : OpenAt changes time number) : InnermostAt changes time name number := by
  refine ⟨hp,ho,?_⟩
  intro later hn hp ho
  rcases List.mem_cons.mp (h later hp ho) with rfl | hm
  · exact Nat.lt_irrefl _ hn
  · exact Nat.lt_asymm hn (hl later hm)

private theorem tail {other : String} (h : Covers changes time name (number :: older))
    (hp : Opens changes other number) (hn : name ≠ other) : Covers changes time name older := by
  intro earlier he ho
  rcases List.mem_cons.mp (h earlier he ho) with rfl | hm
  · exact absurd (he.name_eq hp) hn
  · exact hm

end Covers

variable {numbers : List Nat} {frames : List (String × Int64)}

private theorem lookup_of_holds (hh : List.Forall₂ (Holds changes time) numbers frames)
    (hl : numbers.Pairwise (· > ·)) (hc : Covers changes time name numbers) :
    (frames.lookup name = none ∧ ∀ number, Opens changes name number → ¬ OpenAt changes time number) ∨
    ∃ number value, frames.lookup name = some value ∧ InnermostAt changes time name number ∧
      LastWritten changes time number value := by
  induction hh with
  | nil => exact .inl ⟨rfl,fun number hp ho => List.not_mem_nil (hc number hp ho)⟩
  | @cons number frame older frames hf hr ih =>
    obtain ⟨bound,held⟩ := frame
    obtain ⟨hb,hl⟩ := List.pairwise_cons.mp hl
    by_cases hn : name = bound
    · subst hn
      exact .inr ⟨number,held,List.lookup_cons_self,hc.innermostAt hb hf.opens hf.isOpen,hf.written⟩
    · rw [List.lookup_cons,beq_false_of_ne hn]
      exact ih hl (hc.tail hf.opens hn)

private theorem holds_setFrame (hh : List.Forall₂ (Holds changes time) numbers frames)
    (hl : numbers.Pairwise (· > ·)) (hc : Covers changes time name numbers)
    (hm : changes[time]? = some (.set name value)) :
    List.Forall₂ (Holds changes (time + 1)) numbers (setFrame name value frames) := by
  have ho : ∀ {number}, OpenAt changes time number → OpenAt changes (time + 1) number := by
    intro number h
    rw [OpenAt,hm]
    exact h
  induction hh with
  | nil => exact .nil
  | @cons number frame older frames hf hr ih =>
    obtain ⟨bound,held⟩ := frame
    obtain ⟨hb,hl⟩ := List.pairwise_cons.mp hl
    by_cases hn : name = bound
    · subst hn
      have hi := hc.innermostAt hb hf.opens hf.isOpen
      rw [setFrame,if_pos (beq_self_eq_true name)]
      refine .cons ⟨hf.opens,ho hf.isOpen,.of_writes ((writes_set hm ..).mpr ⟨hi,rfl⟩)⟩ ?_
      -- The frames further out are older, so none of them is innermost and none is written to.
      refine ((List.forall₂_and_left _ _).mpr ⟨hb,hr⟩).imp ?_
      rintro earlier frame ⟨he,hf⟩
      refine hf.succ (ho hf.isOpen) fun other ht => ?_
      exact Nat.ne_of_lt he (((writes_set hm ..).mp ht).1.eq hi)
    · rw [setFrame,if_neg (by simpa using hn)]
      refine .cons (hf.succ (ho hf.isOpen) fun other ht => ?_) (ih hl (hc.tail hf.opens hn))
      exact hn (((writes_set hm ..).mp ht).1.opens.name_eq hf.opens)

private theorem mem_tail_iff (h : numbers.Pairwise (· > ·)) :
    number ∈ numbers.tail ↔ number ∈ numbers ∧ ∃ later, number < later ∧ later ∈ numbers := by
  cases numbers with
  | nil => simp
  | cons last older =>
    obtain ⟨hb,-⟩ := List.pairwise_cons.mp h
    constructor
    · intro hn
      exact ⟨List.mem_cons_of_mem last hn,last,hb number hn,List.mem_cons_self⟩
    · rintro ⟨hn,later,hg,hs⟩
      rcases List.mem_cons.mp hn with rfl | hn
      · rcases List.mem_cons.mp hs with rfl | hs
        · exact absurd hg (Nat.lt_irrefl _)
        · exact absurd hg (Nat.lt_asymm (hb later hs))
      · exact hn

namespace Tracked

private theorem start (changes : List Change) : Tracked changes 0 [] [] :=
  ⟨.nil,fun _ => ⟨fun h => absurd h List.not_mem_nil,False.elim⟩,.nil⟩

private theorem covers (h : Tracked changes time numbers frames) (name : String) :
    Covers changes time name numbers :=
  fun number _ ho => (h.mem_iff number).mpr ho

private theorem enclose (h : Tracked changes time numbers frames)
    (hm : changes[time]? = some (.enclose name value)) :
    Tracked changes (time + 1) (time :: numbers) ((name, value) :: frames) := by
  have ho : ∀ number, OpenAt changes (time + 1) number ↔
      number = time ∨ OpenAt changes time number := by
    intro number
    rw [OpenAt,hm]
  have hb : ∀ number ∈ numbers, number < time :=
    fun number hn => ((h.mem_iff number).mp hn).lt
  refine ⟨List.pairwise_cons.mpr ⟨hb,h.ordered⟩,?_,?_⟩
  · intro number
    rw [ho,List.mem_cons,h.mem_iff]
  · refine .cons ⟨⟨value,hm⟩,(ho time).mpr (.inl rfl),.of_writes ((writes_enclose hm ..).mpr ⟨rfl,rfl⟩)⟩ ?_
    refine ((List.forall₂_and_left _ _).mpr ⟨hb,h.holds⟩).imp ?_
    rintro number frame ⟨hn,hf⟩
    refine hf.succ ((ho number).mpr (.inr hf.isOpen)) fun other hw => ?_
    exact Nat.ne_of_gt hn ((writes_enclose hm ..).mp hw).1

private theorem set (h : Tracked changes time numbers frames)
    (hm : changes[time]? = some (.set name value)) :
    Tracked changes (time + 1) numbers (setFrame name value frames) := by
  refine ⟨h.ordered,?_,holds_setFrame h.holds h.ordered (h.covers name) hm⟩
  intro number
  rw [OpenAt,hm]
  exact h.mem_iff number

private theorem unenclose (h : Tracked changes time numbers frames)
    (hm : changes[time]? = some .unenclose) :
    Tracked changes (time + 1) numbers.tail frames.tail := by
  have hk : ∀ number, number ∈ numbers.tail ↔ OpenAt changes (time + 1) number := by
    intro number
    rw [mem_tail_iff h.ordered,OpenAt,hm]
    simp only [h.mem_iff]
  have hh : List.Forall₂ (Holds changes time) numbers.tail frames.tail := by
    cases h.holds with
    | nil => exact .nil
    | cons _ hr => exact hr
  refine ⟨h.ordered.tail,hk,?_⟩
  refine ((List.forall₂_and_left _ _).mpr ⟨fun number => (hk number).mp,hh⟩).imp ?_
  rintro number frame ⟨hn,hf⟩
  exact hf.succ hn (not_writes_unenclose hm number)

private theorem step {scopes : Scopes} {made : Change} (h : Tracked changes time numbers scopes.frames)
    (hm : changes[time]? = some made) :
    ∃ numbers, Tracked changes (time + 1) numbers (scopes.change made).frames := by
  cases made with
  | enclose name value => exact ⟨_,h.enclose hm⟩
  | set name value => exact ⟨_,h.set hm⟩
  | unenclose => exact ⟨_,h.unenclose hm⟩

private theorem run (changes : List Change) :
    ∃ numbers, Tracked changes changes.length numbers (empty.run changes).frames := by
  have ht : ∀ time ≤ changes.length,
      ∃ numbers, Tracked changes time numbers (empty.run (changes.take time)).frames := by
    intro time
    induction time with
    | zero => exact fun _ => ⟨[],start changes⟩
    | succ time ih =>
      intro hl
      obtain ⟨numbers,h⟩ := ih (Nat.le_of_succ_le hl)
      have hm := List.getElem?_eq_getElem hl
      rw [List.take_add_one,hm,Scopes.run,List.foldl_append]
      exact h.step hm
  have h := ht changes.length (Nat.le_refl _)
  rwa [List.take_length] at h

end Tracked

/-- Changes that close all they open and nothing else. What they set is a name of which they have a
frame open themselves, or one of the given names. -/
inductive WellNested : List String → List Change → Prop where
  | nil (names : List String) : WellNested names []
  | set {names : List String} (name : String) (value : Int64) {rest : List Change} :
      name ∈ names → WellNested names rest → WellNested names (.set name value :: rest)
  | frame {names : List String} (name : String) (value : Int64) (inner rest : List Change) :
      WellNested (name :: names) inner → WellNested names rest →
        WellNested names (.enclose name value :: (inner ++ .unenclose :: rest))

private theorem WellNested.run_append {names : List String} (h : WellNested names changes)
    (own : List (String × Int64)) (ho : own.map Prod.fst = names)
    (outer : List (String × Int64)) :
    ∃ kept : List (String × Int64), kept.map Prod.fst = names ∧
      run ⟨own ++ outer⟩ changes = ⟨kept ++ outer⟩ := by
  induction h generalizing own with
  | nil => exact ⟨own,ho,rfl⟩
  | set name value hn _ ih =>
    obtain ⟨kept,hk,hr⟩ := ih (setFrame name value own) ((map_fst_setFrame ..).trans ho)
    refine ⟨kept,hk,?_⟩
    rw [← hr,← setFrame_append (ho ▸ hn)]
    rfl
  | frame name value inner rest _ _ ihi ihr =>
    -- While the inner changes are made, the new frame is one of those that may be set.
    obtain ⟨within,hw,hi⟩ := ihi ((name,value) :: own) (by rw [List.map_cons,ho])
    obtain ⟨bound,left,rfl,-,hl⟩ := List.map_eq_cons_iff.mp hw
    obtain ⟨kept,hk,hr⟩ := ihr left hl
    refine ⟨kept,hk,?_⟩
    have hc : run ⟨own ++ outer⟩ (.enclose name value :: (inner ++ .unenclose :: rest)) =
        (run (run ⟨(name,value) :: own ++ outer⟩ inner).unenclose rest) := by
      simp only [run,List.foldl_cons,List.foldl_append]
      rfl
    rw [hc,hi]
    exact hr

/-- When changes begin with no frame at all, a name denotes nothing afterwards exactly when none of its
frames is open, and otherwise the value last written to the last opened of those. Changes that are well
nested, and set only names of frames they opened themselves, leave any scopes as they were. -/
theorem scopes_follow_history :
    (∀ changes name,
      ((empty.run changes).get? name = none ↔
        ¬ ∃ number, Opens changes name number ∧ OpenAt changes changes.length number) ∧
      ∀ value, (empty.run changes).get? name = some value ↔
        ∃ number, InnermostAt changes changes.length name number ∧
          LastWritten changes changes.length number value) ∧
    ∀ scopes changes, WellNested [] changes → run scopes changes = scopes := by
  constructor
  · intro changes name
    obtain ⟨numbers,ht⟩ := Tracked.run changes
    rcases lookup_of_holds ht.holds ht.ordered (ht.covers name) with ⟨hl,hn⟩ | ⟨number,held,hl,hi,hw⟩
    · refine ⟨iff_of_true hl ?_,?_⟩
      · rintro ⟨number,hp,ho⟩
        exact hn number hp ho
      · intro value
        rw [get?,hl]
        refine iff_of_false (Option.some_ne_none value).symm ?_
        rintro ⟨number,hi,-⟩
        exact hn number hi.opens hi.isOpen
    · refine ⟨iff_of_false ?_ ?_,?_⟩
      · rw [get?,hl]
        exact Option.some_ne_none held
      · exact not_not_intro ⟨number,hi.opens,hi.isOpen⟩
      · intro value
        rw [get?,hl]
        constructor
        · rintro ⟨⟩
          exact ⟨number,hi,hw⟩
        · rintro ⟨other,ho,hv⟩
          rw [ho.eq hi] at hv
          rw [hw.value_eq hv]
  · intro scopes changes hn
    obtain ⟨kept,hk,hr⟩ := hn.run_append [] rfl scopes.frames
    rw [List.map_eq_nil_iff.mp hk] at hr
    exact hr

/-- One drop too many does nothing, and a set passes by the frames of other names. -/
example : (empty.run [.unenclose, .enclose "i" 1, .enclose "j" 2, .set "i" 3, .unenclose]).get? "i" =
    some 3 := by decide

/-- Three frames that shadow one another and bindings from before, with sets at every level. -/
theorem scopes_follow_history_shadowing :
    WellNested [] [.enclose "i" 1, .set "i" 5, .enclose "j" 2, .enclose "i" 10, .set "j" 9,
      .unenclose, .unenclose, .set "i" 6, .unenclose] ∧
    run ⟨[("i", 4), ("j", 7)]⟩ [.enclose "i" 1, .set "i" 5, .enclose "j" 2, .enclose "i" 10,
      .set "j" 9, .unenclose, .unenclose, .set "i" 6, .unenclose] = ⟨[("i", 4), ("j", 7)]⟩ := by
  have hn : WellNested [] [.enclose "i" 1, .set "i" 5, .enclose "j" 2, .enclose "i" 10, .set "j" 9,
      .unenclose, .unenclose, .set "i" 6, .unenclose] := by
    refine .frame "i" 1 [.set "i" 5, .enclose "j" 2, .enclose "i" 10, .set "j" 9, .unenclose,
      .unenclose, .set "i" 6] [] (.set "i" 5 (by decide) ?_) (.nil _)
    refine .frame "j" 2 [.enclose "i" 10, .set "j" 9, .unenclose] [.set "i" 6] ?_ ?_
    · exact .frame "i" 10 [.set "j" 9] [] (.set "j" 9 (by decide) (.nil _)) (.nil _)
    · exact .set "i" 6 (by decide) (.nil _)
  exact ⟨hn,scopes_follow_history.2 _ _ hn⟩

end NandStack.Scopes
