import NandStack.Proofs.Machine.Lockstep
import NandStack.Proofs.Machine.Tables

/-!
Shadowing: an entry that a name can never mean has no effect on any run. Such are words and
addresses under the names of primitives, and addresses under names that the dictionary has.
-/

namespace NandStack.Machine

def withTables (dictionary : NameTable Program) (addresses : NameTable Nat) (machine : Machine) :
    Machine :=
  { machine with dictionary := dictionary, «variables» := addresses }

/-- The tables differ in shadowed entries only: the names of primitives stand for anything, and so
do the addresses of names that both dictionaries have. -/
structure AgreeUnshadowed (words otherWords : NameTable Program) (addresses otherAddresses : NameTable Nat) :
    Prop where
  words_eq : ∀ name, Primitive.ofName? name = none → otherWords.find? name = words.find? name
  addresses_eq : ∀ name, Primitive.ofName? name = none →
    ¬ (words.contains name ∧ otherWords.contains name) →
    otherAddresses.find? name = addresses.find? name

def SameUnshadowed (first second : Machine) : Prop :=
  ∃ dictionary addresses, second = first.withTables dictionary addresses ∧
    AgreeUnshadowed first.dictionary dictionary first.variables addresses

namespace AgreeUnshadowed
variable {words otherWords : NameTable Program} {addresses otherAddresses : NameTable Nat}

private theorem define (h : AgreeUnshadowed words otherWords addresses otherAddresses) (name : String)
    (body : Program) :
    AgreeUnshadowed (words.insert name body) (otherWords.insert name body) addresses otherAddresses where
  words_eq := by
    intro query hq
    rw [NameTable.find?_insert,NameTable.find?_insert,h.words_eq query hq]
  addresses_eq := by
    intro query hq hn
    refine h.addresses_eq query hq fun ⟨hf,hs⟩ => hn ?_
    simp [hf,hs]

private theorem declare (h : AgreeUnshadowed words otherWords addresses otherAddresses) (name : String)
    (address : Nat) :
    AgreeUnshadowed words otherWords (addresses.insert name address)
      (otherAddresses.insert name address) where
  words_eq := h.words_eq
  addresses_eq := by
    intro query hq hn
    rw [NameTable.find?_insert,NameTable.find?_insert,h.addresses_eq query hq hn]

private theorem meaning_eq {machine : Machine} {dictionary : NameTable Program} {addresses : NameTable Nat}
    (h : AgreeUnshadowed machine.dictionary dictionary machine.variables addresses) (name : String) :
    (machine.withTables dictionary addresses).meaning name = machine.meaning name := by
  cases hp : Primitive.ofName? name with
  | some primitive => simp only [meaning,hp]
  | none =>
    have hw := h.words_eq name hp
    simp only [meaning,withTables,hp,hw]
    cases hd : machine.dictionary.find? name with
    | some body => cases machine.scopes.get? name <;> rfl
    | none =>
      rw [h.addresses_eq name hp]
      intro hc
      rw [NameTable.contains,hd] at hc
      exact absurd hc.1 (by decide)

end AgreeUnshadowed

open Machine.Configuration (running step Alongside Simulation)

private theorem simulation_sameUnshadowed : Simulation SameUnshadowed fun _ _ => False where
  scopes_eq := by
    rintro first _ ⟨dictionary,addresses,rfl,h⟩
    rfl
  depth_eq := by
    rintro first _ ⟨dictionary,addresses,rfl,h⟩
    rfl
  withScopes := by
    rintro first _ scopes ⟨dictionary,addresses,rfl,h⟩
    exact ⟨dictionary,addresses,rfl,h⟩
  withDepth := by
    rintro first _ depth ⟨dictionary,addresses,rfl,h⟩
    exact ⟨dictionary,addresses,rfl,h⟩
  push := by
    rintro first _ value ⟨dictionary,addresses,rfl,h⟩
    exact ⟨dictionary,addresses,rfl,h⟩
  define := by
    rintro first _ name body ⟨dictionary,addresses,rfl,h⟩
    exact ⟨dictionary.insert name body,addresses,rfl,h.define name body⟩
  declare := by
    rintro first _ name ⟨dictionary,addresses,rfl,h⟩
    exact ⟨dictionary,addresses.insert name first.nextAddress,rfl,h.declare name _⟩
  call := by
    rintro first _ name rest pending ⟨dictionary,addresses,rfl,h⟩
    refine .inl ?_
    simp only [Configuration.call,h.meaning_eq]
    cases first.meaning name with
    | primitive primitive =>
      refine .running rest pending ⟨dictionary,addresses,?_,?_⟩
      · exact primitive_change (withTables dictionary addresses) (fun _ _ => rfl) primitive first
      · have hs := sameTables_primitive primitive first
        rw [hs.dictionary_eq,hs.variables_eq]
        exact h
    | word word =>
      simp only [Configuration.enter]
      change Alongside _ _ (if first.depth ≥ first.maxDepth then _ else _)
      split
      · exact .unwinding _ pending ⟨dictionary,addresses,rfl,h⟩
      · exact .running word _ ⟨dictionary,addresses,rfl,h⟩
    | binding | address | unknown =>
      exact .running rest pending ⟨dictionary,addresses,rfl,h⟩
  branch := by
    rintro first _ onTrue onFalse rest pending ⟨dictionary,addresses,rfl,h⟩
    rcases first with ⟨_,_,_,_,_ | ⟨flag,stack⟩,_,_,_,_,_,_⟩ <;>
      exact .inl (.running _ _ ⟨dictionary,addresses,rfl,h⟩)
  loop := by
    rintro first _ body rest pending ⟨dictionary,addresses,rfl,h⟩
    rcases first with ⟨_,_,_,_,_ | ⟨limit,_ | ⟨start,stack⟩⟩,_,_,_,_,_,_⟩
    · exact .inl (.running _ _ ⟨dictionary,addresses,rfl,h⟩)
    · exact .inl (.running _ _ ⟨dictionary,addresses,rfl,h⟩)
    · exact .inl (.turning _ _ _ _ _ ⟨dictionary,addresses,rfl,h⟩)

private theorem meaning_ne_address {machine : Machine} {name : String} (h : machine.isDefined name)
    (address : Nat) : machine.meaning name ≠ .address address := by
  intro he
  unfold meaning at he
  split at he
  · cases he
  · cases he
  · cases he
  · rename_i hp _ hd _
    simp [isDefined,NameTable.contains,hp,hd] at h
  · cases he

/-- Shadowed entries are dead: evaluations of any program on machines that are equal but for such
entries end alike, with machines that are again equal but for such entries. At every moment the name
of a primitive means the primitive, and a name that is defined then or was before means no address,
whatever is defined and declared on the way. -/
theorem shadowed_entries_are_dead {first second : Machine} (h : SameUnshadowed first second)
    (program : Program) :
    SameUnshadowed (first.evaluate program).machine (second.evaluate program).machine ∧
    (second.evaluate program).error? = (first.evaluate program).error? ∧
    ∀ steps rest pending now, step^[steps] (running program [] first) = running rest pending now →
      ∀ name,
        (∀ primitive, Primitive.ofName? name = some primitive →
          now.meaning name = .primitive primitive) ∧
        ∀ earlier ≤ steps, (step^[earlier] (running program [] first)).machine.isDefined name →
          ∀ address, now.meaning name ≠ .address address := by
  have he := (simulation_sameUnshadowed.evaluate id id h program).resolve_right id
  refine ⟨he.1,he.2,?_⟩
  intro steps rest pending now hn name
  constructor
  · intro primitive hp
    simp only [meaning,hp]
  · intro earlier hle hd address
    apply meaning_ne_address
    have hl := Configuration.isDefined_iterate hd (steps - earlier)
    rw [← Function.iterate_add_apply,Nat.sub_add_cancel hle,hn] at hl
    exact hl

/-- A word under the name of a sum and addresses under those of a word and of a primitive make no
difference to a program that declares and defines such names itself. -/
theorem shadowed_entries_are_dead_redeclared :
    let program := Program.declare "f" (.define "drop" (.push 1 .nil)
      (.call "f" (.call "f" (.call "+" (.call "f" (.call "drop" .nil))))))
    let first := (blank ⟨#[]⟩ .unlimited 1).define "f" (.push 7 .nil)
    let second := first.withTables (first.dictionary.insert "+" .nil)
      ((first.variables.insert "f" 3).insert "drop" 4)
    SameUnshadowed first second ∧
      SameUnshadowed (first.evaluate program).machine (second.evaluate program).machine ∧
      (second.evaluate program).machine.stack = [14] ∧
      ∃ now, step^[2] (running program [] first) =
          running (.call "f" (.call "f" (.call "+" (.call "f" (.call "drop" .nil))))) [] now ∧
        now.variables.find? "f" = some 0 ∧ now.meaning "f" ≠ .address 0 ∧
        now.meaning "drop" = .primitive .drop := by
  intro program first second
  have hs : SameUnshadowed first second := by
    refine ⟨_,_,rfl,?_,?_⟩
    · intro name hp
      have hn : name ≠ "+" := by
        rintro rfl
        cases hp
      rw [NameTable.find?_insert,if_neg hn]
    · intro name hp hd
      have hf : name ≠ "f" := by
        rintro rfl
        exact hd (by decide)
      have hn : name ≠ "drop" := by
        rintro rfl
        cases hp
      rw [NameTable.find?_insert,if_neg hn,NameTable.find?_insert,if_neg hf]
  obtain ⟨he,-,hm⟩ := shadowed_entries_are_dead hs program
  obtain ⟨-,hw⟩ := hm 2 _ _ _ rfl "f"
  obtain ⟨hp,-⟩ := hm 2 _ _ _ rfl "drop"
  exact ⟨hs,he,by decide,_,rfl,by decide,hw 0 (Nat.zero_le 2) (by decide) 0,hp _ rfl⟩

end NandStack.Machine
