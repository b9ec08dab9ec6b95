import NandStack.Proofs.Machine.Growth
import NandStack.Proofs.Machine.Lockstep

/-!
Peripherals: the memory, the sink and the reports. Three primitives work on them, every other step
adds a report at most. So two evaluations on machines that differ in their peripherals stay in
lockstep, however these are related, as long as reporting, printing, storing and fetching keep the
relation.
-/

namespace NandStack

structure Peripherals where
  memory : Memory
  sink : Sink
  reports : Array Fault

namespace Peripherals

def report (held : Peripherals) (fault : Fault) : Peripherals :=
  { held with reports := held.reports.push fault }

def offer (held : Peripherals) (line : String) : Peripherals :=
  match held.sink.writeLine line with
  | (sink, none) => { held with sink := sink }
  | (sink, some reason) => { held with sink := sink }.report (.outputFailed reason)

end Peripherals

namespace Machine

def peripherals (machine : Machine) : Peripherals :=
  ⟨machine.memory,machine.sink,machine.reports⟩

def withPeripherals (held : Peripherals) (machine : Machine) : Machine :=
  { machine with memory := held.memory, sink := held.sink, reports := held.reports }

def mapPeripherals (change : Peripherals → Peripherals) (machine : Machine) : Machine :=
  machine.withPeripherals (change machine.peripherals)

/-- The machines are equal but for their peripherals, and these are related. -/
def AlikeUpTo (related : Peripherals → Peripherals → Prop) (first second : Machine) : Prop :=
  ∃ held, second = first.withPeripherals held ∧ related first.peripherals held

private theorem runPrint_cons {machine : Machine} {value : Int64} {below : List Int64}
    (h : machine.stack = value :: below) :
    Primitive.runPrint machine = withPeripherals (machine.peripherals.offer (Decimal.write value))
      { machine with stack := below } := by
  simp only [Primitive.runPrint,h,Peripherals.offer,peripherals]
  rcases machine.sink.writeLine (Decimal.write value) with ⟨sink,_ | reason⟩ <;> rfl

/-- What has to be known of a relation. Storing and fetching may look at cells that only one memory
has, and then the machines need not be alike any more. -/
structure Compatible (related : Peripherals → Peripherals → Prop) (apart : Machine → Prop) : Prop where
  report {held other : Peripherals} (fault : Fault) :
    related held other → related (held.report fault) (other.report fault)
  offer {held other : Peripherals} (line : String) :
    related held other → related (held.offer line) (other.offer line)
  store {first second : Machine} : AlikeUpTo related first second →
    AlikeUpTo related (Primitive.runStore first) (Primitive.runStore second) ∨
      apart (Primitive.runStore first)
  fetch {first second : Machine} : AlikeUpTo related first second →
    AlikeUpTo related (Primitive.runFetch first) (Primitive.runFetch second) ∨
      apart (Primitive.runFetch first)

variable {related : Peripherals → Peripherals → Prop} {apart : Machine → Prop}

/-- Over equal memories only printing and reporting have to be looked at. -/
theorem compatible_of_memory_eq
    (memory_eq : ∀ {held other}, related held other → other.memory = held.memory)
    (withMemory : ∀ {held other} (memory : Memory), related held other →
      related { held with memory := memory } { other with memory := memory })
    (report : ∀ {held other} (fault : Fault), related held other →
      related (held.report fault) (other.report fault))
    (offer : ∀ {held other} (line : String), related held other →
      related (held.offer line) (other.offer line)) :
    Compatible related apart where
  report := report
  offer := offer
  store := by
    rintro first _ ⟨⟨memory,sink,reports⟩,rfl,hr⟩
    cases memory_eq hr
    refine .inl ?_
    rcases first with ⟨_,_,_,_,_ | ⟨address,_ | ⟨value,rest⟩⟩,_,memory,_,_,_,_⟩
    · exact ⟨_,rfl,report _ hr⟩
    · exact ⟨_,rfl,report _ hr⟩
    · simp only [Primitive.runStore,withPeripherals]
      cases memory.cell? address with
      | some cell => exact ⟨_,rfl,withMemory (memory.store cell value) hr⟩
      | none => exact ⟨_,rfl,report _ hr⟩
  fetch := by
    rintro first _ ⟨⟨memory,sink,reports⟩,rfl,hr⟩
    cases memory_eq hr
    refine .inl ?_
    rcases first with ⟨_,_,_,_,_ | ⟨address,rest⟩,_,memory,_,_,_,_⟩
    · exact ⟨_,rfl,report _ hr⟩
    · simp only [Primitive.runFetch,withPeripherals]
      cases memory.cell? address with
      | some cell => exact ⟨_,rfl,hr⟩
      | none => exact ⟨_,rfl,report _ hr⟩

private theorem alikeUpTo_print (hc : Compatible related apart) {first second : Machine}
    (h : AlikeUpTo related first second) :
    AlikeUpTo related (Primitive.runPrint first) (Primitive.runPrint second) := by
  obtain ⟨held,rfl,hr⟩ := h
  rcases first with ⟨_,_,_,_,_ | ⟨value,rest⟩,_,_,_,_,_,_⟩
  · exact ⟨_,rfl,hc.report _ hr⟩
  · rw [runPrint_cons rfl,runPrint_cons rfl]
    exact ⟨_,rfl,hc.offer (Decimal.write value) hr⟩

private theorem alikeUpTo_combine (hc : Compatible related apart) {first second : Machine}
    (h : AlikeUpTo related first second) (word : Primitive) (operation : Int64 → Int64 → Int64) :
    AlikeUpTo related (word.combine operation first) (word.combine operation second) := by
  obtain ⟨held,rfl,hr⟩ := h
  rcases first with ⟨_,_,_,_,_ | ⟨top,_ | ⟨below,rest⟩⟩,_,_,_,_,_,_⟩
  · exact ⟨_,rfl,hc.report _ hr⟩
  · exact ⟨_,rfl,hc.report _ hr⟩
  · exact ⟨held,rfl,hr⟩

private theorem alikeUpTo_primitive (hc : Compatible related apart) {first second : Machine}
    (h : AlikeUpTo related first second) (primitive : Primitive) :
    AlikeUpTo related (primitive.run first) (primitive.run second) ∨ apart (primitive.run first) := by
  cases primitive with
  | print => exact .inl (alikeUpTo_print hc h)
  | store => exact hc.store h
  | fetch => exact hc.fetch h
  | add | nand => exact .inl (alikeUpTo_combine hc h _ _)
  | drop | toReturn | isNegative =>
    obtain ⟨held,rfl,hr⟩ := h
    rcases first with ⟨_,_,_,_,_ | ⟨value,rest⟩,_,_,_,_,_,_⟩
    · exact .inl ⟨_,rfl,hc.report _ hr⟩
    · exact .inl ⟨held,rfl,hr⟩
  | fromReturn =>
    obtain ⟨held,rfl,hr⟩ := h
    rcases first with ⟨_,_,_,_,_,_ | ⟨value,rest⟩,_,_,_,_,_⟩
    · exact .inl ⟨_,rfl,hc.report _ hr⟩
    · exact .inl ⟨held,rfl,hr⟩

open Machine.Configuration (Alongside Simulation)

/-- Evaluations on machines that are alike go along with each other up to a step that sets them
apart. -/
theorem simulation_alikeUpTo (hc : Compatible related apart) :
    Simulation (AlikeUpTo related) fun first _ => apart first.machine where
  scopes_eq := by
    rintro first _ ⟨held,rfl,hr⟩
    rfl
  depth_eq := by
    rintro first _ ⟨held,rfl,hr⟩
    rfl
  withScopes := by
    rintro first _ scopes ⟨held,rfl,hr⟩
    exact ⟨held,rfl,hr⟩
  withDepth := by
    rintro first _ depth ⟨held,rfl,hr⟩
    exact ⟨held,rfl,hr⟩
  push := by
    rintro first _ value ⟨held,rfl,hr⟩
    exact ⟨held,rfl,hr⟩
  define := by
    rintro first _ name body ⟨held,rfl,hr⟩
    exact ⟨held,rfl,hr⟩
  declare := by
    rintro first _ name ⟨held,rfl,hr⟩
    exact ⟨held,rfl,hr⟩
  call := by
    rintro first second name rest pending h
    have hm : second.meaning name = first.meaning name := by
      obtain ⟨held,rfl,-⟩ := h
      rfl
    simp only [Configuration.call,hm]
    cases first.meaning name with
    | primitive primitive =>
      exact (alikeUpTo_primitive hc h primitive).imp_left (.running rest pending)
    | word word =>
      obtain ⟨held,rfl,hr⟩ := h
      simp only [Configuration.enter]
      change Alongside _ _ (if first.depth ≥ first.maxDepth then _ else _) ∨ _
      split
      · exact .inl (.unwinding _ pending ⟨held,rfl,hr⟩)
      · exact .inl (.running word _ ⟨held,rfl,hr⟩)
    | unknown =>
      obtain ⟨held,rfl,hr⟩ := h
      exact .inl (.running rest pending ⟨_,rfl,hc.report _ hr⟩)
    | binding | address =>
      obtain ⟨held,rfl,hr⟩ := h
      exact .inl (.running rest pending ⟨held,rfl,hr⟩)
  branch := by
    rintro first _ onTrue onFalse rest pending ⟨held,rfl,hr⟩
    rcases first with ⟨_,_,_,_,_ | ⟨flag,stack⟩,_,_,_,_,_,_⟩
    · exact .inl (.running _ _ ⟨_,rfl,hc.report _ hr⟩)
    · exact .inl (.running _ _ ⟨held,rfl,hr⟩)
  loop := by
    rintro first _ body rest pending ⟨held,rfl,hr⟩
    rcases first with ⟨_,_,_,_,_ | ⟨limit,_ | ⟨start,stack⟩⟩,_,_,_,_,_,_⟩
    · exact .inl (.running _ _ ⟨_,rfl,hc.report _ hr⟩)
    · exact .inl (.running _ _ ⟨_,rfl,hc.report _ hr⟩)
    · exact .inl (.turning _ _ _ _ _ ⟨held,rfl,hr⟩)

def Changed (change : Peripherals → Peripherals) (held other : Peripherals) : Prop :=
  other = change held

/-- If every step goes along with a change of the peripherals, then so do evaluations that do not set
the machines apart. -/
theorem evaluate_mapPeripherals {change : Peripherals → Peripherals}
    (hc : Compatible (Changed change) apart)
    (hl : ∀ {now : Configuration}, apart now.machine → apart now.step.machine)
    {machine : Machine} {program : Program} (h : ¬ apart (machine.evaluate program).machine) :
    (machine.mapPeripherals change).evaluate program =
      (machine.evaluate program).mapMachine (mapPeripherals change) := by
  have ha : AlikeUpTo (Changed change) machine (machine.mapPeripherals change) := ⟨_,rfl,rfl⟩
  have hs := (simulation_alikeUpTo hc).evaluate id hl ha program
  obtain ⟨⟨held,hm,hr⟩,he⟩ := hs.resolve_right h
  cases hr
  refine Outcome.ext ?_ ?_
  · rw [hm,Outcome.machine_mapMachine]
    rfl
  · rw [he,Outcome.error?_mapMachine]

end Machine

end NandStack
