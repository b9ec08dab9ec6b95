import Mathlib.Algebra.Group.Nat.Defs
import NandStack.Proofs.Machine.Pieces
import NandStack.Proofs.Session.Moments

/-!
Addresses: the declarations of a session are numbered from zero in the order in which they are
executed, wherever that happens, and the number of a name's last declaration is its address.
-/

namespace NandStack

/-- The last declaration of the name is the one with this number. -/
def LastDeclared (names : List String) (name : String) (number : Nat) : Prop :=
  names[number]? = some name ∧ name ∉ names.drop (number + 1)

instance (names : List String) (name : String) (number : Nat) :
    Decidable (LastDeclared names name number) :=
  inferInstanceAs (Decidable (_ ∧ _))

namespace LastDeclared

variable {names : List String} {name other : String} {number : Nat}

private theorem lt (h : LastDeclared names name number) : number < names.length :=
  (List.getElem?_eq_some_iff.mp h.1).1

private theorem injective (h : LastDeclared names name number) (ho : LastDeclared names other number) :
    name = other :=
  Option.some.inj (h.1.symm.trans ho.1)

private theorem le {earlier : Nat} (h : LastDeclared names name number)
    (he : names[earlier]? = some name) : earlier ≤ number := by
  by_contra hc
  apply h.2
  apply List.mem_of_getElem? (i := earlier - (number + 1))
  rw [List.getElem?_drop,Nat.add_sub_cancel' (Nat.lt_of_not_le hc),he]

private theorem exists_of_mem (h : name ∈ names) : ∃ number, LastDeclared names name number := by
  induction names with
  | nil => cases h
  | cons head rest ih =>
    by_cases hr : name ∈ rest
    · obtain ⟨number,hn,hd⟩ := ih hr
      exact ⟨number + 1,hn,hd⟩
    · rcases List.mem_cons.mp h with rfl | hm
      · exact ⟨0,rfl,hr⟩
      · exact absurd hm hr

private theorem concat_self_iff : LastDeclared (names ++ [name]) name number ↔ number = names.length := by
  constructor
  · rintro ⟨hn,hd⟩
    obtain ⟨hl,-⟩ := List.getElem?_eq_some_iff.mp hn
    rw [List.length_append,List.length_singleton] at hl
    by_contra hc
    have hb : number + 1 ≤ names.length := by omega
    rw [List.drop_append_of_le_length hb] at hd
    simp at hd
  · rintro rfl
    simp [LastDeclared]

private theorem concat_iff (hn : name ≠ other) :
    LastDeclared (names ++ [other]) name number ↔ LastDeclared names name number := by
  unfold LastDeclared
  by_cases hl : number < names.length
  · rw [List.getElem?_append_left hl,List.drop_append_of_le_length hl]
    simp [hn]
  · grind

end LastDeclared

namespace Machine

open Machine.Configuration (running halted Reaches Rests)

structure Addressed (names : List String) (machine : Machine) : Prop where
  nextAddress_eq : machine.nextAddress = names.length
  find?_iff : ∀ name address,
    machine.variables.find? name = some address ↔ LastDeclared names name address

namespace Addressed

variable {names : List String} {machine : Machine}

private theorem of_blank (memory : Memory) (sink : Sink) (maxDepth : Nat) :
    Addressed [] (blank memory sink maxDepth) := by
  refine ⟨rfl,?_⟩
  intro name address
  simp [blank,LastDeclared]

private theorem of_sameTables {after : Machine} (h : Addressed names machine)
    (ht : SameTables machine after) : Addressed names after := by
  refine ⟨ht.nextAddress_eq.trans h.nextAddress_eq,?_⟩
  rw [ht.variables_eq]
  exact h.find?_iff

private theorem find?_declare (h : Addressed names machine) (name query : String) :
    (machine.declare name).variables.find? query =
      if query = name then some names.length else machine.variables.find? query := by
  rw [← h.nextAddress_eq]
  exact NameTable.find?_insert ..

private theorem declare (h : Addressed names machine) (name : String) :
    Addressed (names ++ [name]) (machine.declare name) := by
  refine ⟨?_,?_⟩
  · rw [List.length_append]
    exact congrArg (· + 1) h.nextAddress_eq
  · intro query address
    rw [h.find?_declare]
    split
    · rename_i hq
      rw [hq,LastDeclared.concat_self_iff,Option.some.injEq,eq_comm]
    · rename_i hq
      rw [LastDeclared.concat_iff hq]
      exact h.find?_iff query address

private theorem step {now : Configuration} (h : Addressed names now.machine) :
    Addressed (names ++ now.declaring?.toList) now.step.machine := by
  cases now.tableStep with
  | defines name body hd hs =>
    rw [hd,hs,Option.toList_none,List.append_nil]
    exact ⟨h.nextAddress_eq,h.find?_iff⟩
  | declares name hd hs =>
    rw [hd,hs]
    exact h.declare name
  | keeps hd hs =>
    rw [hd,Option.toList_none,List.append_nil]
    exact h.of_sameTables hs

private theorem reaches {first now : Configuration} {more : List String}
    (h : Addressed names first.machine) (hr : Reaches first more now) :
    Addressed (names ++ more) now.machine := by
  induction hr with
  | refl =>
    rw [List.append_nil]
    exact h
  | step _ ih =>
    rw [← List.append_assoc]
    exact ih.step
  | evaluate _ _ ih => exact ih
  | takeReports _ ih | takeOutput _ ih => exact ih.of_sameTables ⟨rfl,rfl,rfl⟩

private theorem lt (h : Addressed names machine) {name : String} {address : Nat}
    (ha : machine.variables.find? name = some address) : address < names.length :=
  ((h.find?_iff name address).mp ha).lt

private theorem injective (h : Addressed names machine) {name other : String} {address : Nat}
    (hn : machine.variables.find? name = some address)
    (ho : machine.variables.find? other = some address) : name = other :=
  ((h.find?_iff name address).mp hn).injective ((h.find?_iff other address).mp ho)

end Addressed

/-- Nothing that has been named is lost: a word stays defined, and a variable keeps an address, which
is replaced by higher ones only. No address comes back. -/
structure Kept (before after : Machine) : Prop where
  nextAddress : before.nextAddress ≤ after.nextAddress
  address : ∀ name address, before.variables.find? name = some address →
    ∃ new, after.variables.find? name = some new ∧ address ≤ new
  isDefined : ∀ name, before.isDefined name → after.isDefined name

private theorem Addressed.kept {names more : List String} {now later : Configuration}
    (h : Addressed names now.machine) (hr : Reaches now more later) :
    Kept now.machine later.machine := by
  have hl := h.reaches hr
  refine ⟨?_,?_,fun name hd => hr.isDefined hd⟩
  · rw [h.nextAddress_eq,hl.nextAddress_eq,List.length_append]
    exact Nat.le_add_right ..
  · intro name address ha
    obtain ⟨hn,-⟩ := (h.find?_iff name address).mp ha
    have hs : (names ++ more)[address]? = some name := by
      rw [List.getElem?_append_left (h.lt ha),hn]
    obtain ⟨new,hw⟩ := LastDeclared.exists_of_mem (List.mem_of_getElem? hs)
    exact ⟨new,(hl.find?_iff name new).mpr hw,hw.le hs⟩

namespace Configuration

private theorem Reaches.declarations {first : Configuration} {program : Program} (hd : program.declares)
    (enter : Program → Machine → Outcome Fault) {names : List String} {machine : Machine}
    (h : Reaches first names (running program [] machine)) :
    ∃ after, run enter program machine = .finished after ∧
      Reaches first (names ++ program.declarations) (halted (.finished after)) := by
  induction program generalizing names machine with
  | nil => exact ⟨machine,rfl,h.step⟩
  | define name body rest _ ih =>
    have hs : Reaches first (names ++ []) (running rest [] (machine.define name body)) := h.step
    rw [List.append_nil] at hs
    exact ih hd hs
  | declare name rest ih =>
    have hs : Reaches first (names ++ [name]) (running rest [] (machine.declare name)) := h.step
    obtain ⟨after,he,hr⟩ := ih hd hs
    rw [← List.append_cons] at hr
    exact ⟨after,he,hr⟩
  | push | call | ifThen | ifElse | loop => cases hd

/-- The standard vocabulary declares `temp` and nothing else. -/
theorem reaches_create {grants : Nat → Bool} {sizes : MachineSizes} {sink : Sink} {machine : Machine}
    (h : create grants sizes sink = .ok machine) :
    ∃ memory, Memory.allocate? grants (sizes.cells + sizes.reserved) = some memory ∧
      Reaches (halted (.finished (blank memory sink sizes.maxDepth))) ["temp"]
        (halted (.finished machine)) := by
  obtain ⟨memory,hm,he⟩ := createWith_eq_ok h
  obtain ⟨program,hp,hd,ht⟩ := Vocabulary.declarations_source
  have hs : Reaches (halted (.finished (blank memory sink sizes.maxDepth))) []
      (running program [] (blank memory sink sizes.maxDepth)) := .evaluate .refl program
  obtain ⟨after,hf,hr⟩ := hs.declarations hd (enterWithin (sizes.maxDepth - 0))
  have hv : (blank memory sink sizes.maxDepth).evaluate program = .finished after := by
    rw [evaluate,runWithin_eq_run]
    exact hf
  rw [evaluateSource_of_ok _ hp,hv] at he
  cases he
  rw [List.nil_append,ht] at hr
  exact ⟨memory,hm,hr⟩

end Configuration

private theorem addressed_of_create {grants : Nat → Bool} {sizes : MachineSizes} {sink : Sink}
    {machine : Machine} (h : create grants sizes sink = .ok machine) : Addressed ["temp"] machine := by
  obtain ⟨memory,-,hr⟩ := Configuration.reaches_create h
  have hb := Addressed.of_blank memory sink sizes.maxDepth
  exact hb.reaches hr

/-- Addresses are fresh, dense and never shared. Since its creation, which declares `temp`, a machine
counts the declarations in the steps of its evaluations, aborted ones included. At every moment the
table holds the number of each name's last declaration, which is below the next address and belongs to
no other name. A declaration gives the next number, whatever the memory holds and wherever it ends.
Later moments keep all names and never lower an address. -/
theorem addresses_fresh_and_dense {grants : Nat → Bool} {sizes : MachineSizes} {sink : Sink}
    {machine : Machine} (h : create grants sizes sink = .ok machine) :
    (∃ memory, Memory.allocate? grants (sizes.cells + sizes.reserved) = some memory ∧
      Reaches (halted (.finished (blank memory sink sizes.maxDepth))) ["temp"]
        (halted (.finished machine))) ∧
    (∀ requests : List Request,
      Rests (halted (.finished machine)) (requests.foldl serve machine)) ∧
    (∀ names outcome, Reaches (halted (.finished machine)) names (halted outcome) →
      ∀ program, ∃ steps, Reaches (halted (.finished machine))
        (names ++ (running program [] outcome.machine).declared steps)
        (halted (outcome.machine.evaluate program))) ∧
    ∀ names now, Reaches (halted (.finished machine)) names now →
      now.machine.nextAddress = names.length + 1 ∧
      (∀ name address, now.machine.variables.find? name = some address ↔
        LastDeclared ("temp" :: names) name address) ∧
      (∀ name address, now.machine.variables.find? name = some address →
        address < now.machine.nextAddress ∧
        (names.length + 1 < 2 ^ 63 → (Int64.ofNat address).toInt = address) ∧
        ∀ other, now.machine.variables.find? other = some address → other = name) ∧
      (∀ name rest pending before, now = running (.declare name rest) pending before →
        now.step.machine.variables.find? name = some (names.length + 1) ∧
        ∀ memory, (running (.declare name rest) pending { before with memory := memory }).step =
          running rest pending { before.declare name with memory := memory }) ∧
      ∀ more later, Reaches now more later → Kept now.machine later.machine := by
  refine ⟨Configuration.reaches_create h,?_,?_,?_⟩
  · intro requests
    exact Rests.requests ⟨[],_,.refl,rfl⟩ requests
  · intro names outcome hr program
    exact hr.evaluated program
  · intro names now hr
    have ha : Addressed ("temp" :: names) now.machine := (addressed_of_create h).reaches hr
    refine ⟨ha.nextAddress_eq,ha.find?_iff,?_,?_,fun more later hl => ha.kept hl⟩
    · intro name address hn
      have hl : address < names.length + 1 := ha.lt hn
      refine ⟨ha.nextAddress_eq ▸ hl,?_,fun other ho => ha.injective ho hn⟩
      intro hb
      exact Int64.toInt_ofNat_of_lt (by omega)
    · rintro name rest pending before rfl
      refine ⟨?_,fun memory => rfl⟩
      have hd := ha.find?_declare name name
      rw [if_pos rfl] at hd
      exact hd

/-- Two turns of a loop declare one name twice, then the vocabulary's own variable is declared again;
the memory has no cell at all. -/
theorem addresses_fresh_and_dense_redeclared :
    let program := Program.push 0 (.push 2 (.loop (.declare "x" .nil) (.declare "temp" .nil)))
    ∃ machine after, create (fun _ => true) ⟨0, 0, 1⟩ .unlimited = .ok machine ∧
      machine.evaluate program = .finished after ∧
      Reaches (halted (.finished machine)) ["x", "x", "temp"] (halted (.finished after)) ∧
      machine.variables.find? "temp" = some 0 ∧ after.variables.find? "x" = some 2 ∧
      after.variables.find? "temp" = some 3 ∧ after.nextAddress = 4 ∧
      after.memory.cells = #[] := by
  intro program
  obtain ⟨machine,hc,hb⟩ := fresh_create (fun _ => true) ⟨0, 0, 1⟩ .unlimited rfl
  have hm := (addresses_fresh_and_dense hc).2.2.2
  have hs : Reaches (halted (.finished machine)) [] (running program [] machine) :=
    .evaluate .refl program
  have hr := hs.iterate 12
  have ha := hm _ _ hr
  have hf : machine.variables.find? "temp" = some 0 := ((hm _ _ .refl).2.1 "temp" 0).mpr (by decide)
  have hx : LastDeclared ["temp", "x", "x", "temp"] "x" 2 := by decide
  have ht : LastDeclared ["temp", "x", "x", "temp"] "temp" 3 := by decide
  obtain ⟨dictionary,addresses,nextAddress,rfl⟩ := hb
  exact ⟨_,_,hc,rfl,hr,hf,(ha.2.1 "x" 2).mpr hx,(ha.2.1 "temp" 3).mpr ht,ha.1,rfl⟩

end Machine

end NandStack
