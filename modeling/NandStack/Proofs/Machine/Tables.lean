import NandStack.Proofs.Machine.Growth
import NandStack.Proofs.Machine.Operands

/-!
Tables: a definition enters a word, a declaration gives an address, and no other step touches the
dictionary, the variables or the next address. So a word that is defined stays defined.
-/

namespace NandStack

@[simp] theorem NameTable.contains_insert {α : Type} (table : NameTable α) (name query : String)
    (value : α) :
    (table.insert name value).contains query = (query == name || table.contains query) := by
  unfold contains
  rw [find?_insert]
  split <;> simp_all

namespace Machine

structure SameTables (before after : Machine) : Prop where
  dictionary_eq : after.dictionary = before.dictionary
  variables_eq : after.variables = before.variables
  nextAddress_eq : after.nextAddress = before.nextAddress

theorem sameTables_primitive (primitive : Primitive) (machine : Machine) :
    SameTables machine (primitive.run machine) := by
  rw [← amid_primitive]
  exact ⟨rfl,rfl,rfl⟩

namespace Configuration

def declaring? : Configuration → Option String
  | running (.declare name _) _ _ => some name
  | _ => none

inductive TableStep (configuration : Configuration) : Prop where
  | defines (name : String) (body : Program) (hd : configuration.declaring? = none)
    (hs : configuration.step.machine = configuration.machine.define name body)
  | declares (name : String) (hd : configuration.declaring? = some name)
    (hs : configuration.step.machine = configuration.machine.declare name)
  | keeps (hd : configuration.declaring? = none)
    (hs : SameTables configuration.machine configuration.step.machine)

private theorem sameTables_call (name : String) (rest : Program) (pending : List Pending)
    (machine : Machine) : SameTables machine (call name rest pending machine).machine := by
  unfold call
  cases machine.meaning name with
  | primitive primitive => exact sameTables_primitive primitive machine
  | word word =>
    dsimp only [enter]
    split <;> exact ⟨rfl,rfl,rfl⟩
  | binding | address | unknown => exact ⟨rfl,rfl,rfl⟩

private theorem sameTables_branch (onTrue onFalse rest : Program) (pending : List Pending)
    (machine : Machine) :
    SameTables machine (branch onTrue onFalse rest pending machine).machine := by
  unfold branch
  split <;> exact ⟨rfl,rfl,rfl⟩

private theorem sameTables_loop (body rest : Program) (pending : List Pending) (machine : Machine) :
    SameTables machine (loop body rest pending machine).machine := by
  unfold loop
  split <;> exact ⟨rfl,rfl,rfl⟩

private theorem sameTables_leave (machine : Machine) (pending : List Pending) :
    SameTables machine (leave machine pending).machine := by
  rcases pending with _ | ⟨_ | _ | _,pending⟩ <;> exact ⟨rfl,rfl,rfl⟩

private theorem sameTables_giveUp (fault : Fault) (machine : Machine) (pending : List Pending) :
    SameTables machine (giveUp fault machine pending).machine := by
  rcases pending with _ | ⟨_ | _ | _,pending⟩ <;> exact ⟨rfl,rfl,rfl⟩

theorem tableStep (configuration : Configuration) : TableStep configuration := by
  cases configuration with
  | running program pending machine =>
    cases program with
    | nil => exact .keeps rfl (sameTables_leave machine pending)
    | push value rest => exact .keeps rfl ⟨rfl,rfl,rfl⟩
    | call name rest => exact .keeps rfl (sameTables_call name rest pending machine)
    | define name body rest => exact .defines name body rfl rfl
    | declare name rest => exact .declares name rfl rfl
    | ifThen consequence rest =>
      exact .keeps rfl (sameTables_branch consequence .nil rest pending machine)
    | ifElse consequence alternative rest =>
      exact .keeps rfl (sameTables_branch consequence alternative rest pending machine)
    | loop body rest => exact .keeps rfl (sameTables_loop body rest pending machine)
  | turning body index limit rest pending machine =>
    refine .keeps rfl ?_
    rw [step]
    split <;> exact ⟨rfl,rfl,rfl⟩
  | unwinding fault pending machine => exact .keeps rfl (sameTables_giveUp fault machine pending)
  | halted outcome => exact .keeps rfl ⟨rfl,rfl,rfl⟩

theorem isDefined_step {configuration : Configuration} {name : String}
    (h : configuration.machine.isDefined name) : configuration.step.machine.isDefined name := by
  cases tableStep configuration with
  | defines other body _ hs =>
    rw [hs]
    simp only [isDefined,define,NameTable.contains_insert,Bool.or_eq_true] at h ⊢
    exact h.imp_right .inr
  | declares other _ hs =>
    rw [hs]
    exact h
  | keeps _ hs =>
    rw [isDefined,hs.dictionary_eq]
    exact h

/-- A word that is defined at some moment is defined at all later ones. -/
theorem isDefined_iterate {configuration : Configuration} {name : String}
    (h : configuration.machine.isDefined name) (steps : Nat) :
    (step^[steps] configuration).machine.isDefined name :=
  Function.Iterate.rec (fun later : Configuration => later.machine.isDefined name) h
    (fun _ hi => isDefined_step hi) steps

private theorem contains_variables_step {configuration : Configuration} {name : String}
    (h : configuration.machine.variables.contains name) :
    configuration.step.machine.variables.contains name := by
  cases tableStep configuration with
  | defines other body _ hs =>
    rw [hs]
    exact h
  | declares other _ hs =>
    rw [hs]
    simp only [declare,NameTable.contains_insert,Bool.or_eq_true]
    exact .inr h
  | keeps _ hs =>
    rw [hs.variables_eq]
    exact h

/-- A name that has an address at some moment has one at all later ones. -/
theorem contains_variables_iterate {configuration : Configuration} {name : String}
    (h : configuration.machine.variables.contains name) (steps : Nat) :
    (step^[steps] configuration).machine.variables.contains name :=
  Function.Iterate.rec (fun later : Configuration => later.machine.variables.contains name) h
    (fun _ hi => contains_variables_step hi) steps

end Configuration

end Machine

end NandStack
