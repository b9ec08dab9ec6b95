import NandStack.Proofs.Machine.Nodes
import NandStack.Proofs.Memory

/-!
Checks: every primitive, branch and loop looks at what it needs before it takes any of it. Either it
does all that it is for, or it adds one report and leaves the rest of the machine to the next node.
-/

namespace NandStack

namespace Primitive
variable {machine : Machine}

/-- The words that need values on the data stack, and how many. -/
def operands : List (String × Nat) :=
  [(".", 1), ("drop", 1), (">r", 1), ("@", 1), ("0<", 1), ("+", 2), ("nand", 2), ("!", 2)]

def words : List String :=
  "r>" :: operands.map Prod.fst

/-- What a word that cannot do its work on the machine reports. -/
inductive Refuses (machine : Machine) : String → Fault → Prop where
  | underflow {word : String} {needed : Nat} (hw : (word, needed) ∈ operands)
    (h : machine.stack.length < needed) :
    Refuses machine word (.stackUnderflow word needed machine.stack.length)
  | returnUnderflow (h : machine.returnStack = []) :
    Refuses machine "r>" (.returnStackUnderflow "r>")
  | store {address value : Int64} {below : List Int64} (h : machine.stack = address :: value :: below)
    (ho : address.toInt < 0 ∨ machine.memory.cells.size ≤ address.toInt) :
    Refuses machine "!" (.addressOutOfRange address machine.memory.cells.size)
  | fetch {address : Int64} {below : List Int64} (h : machine.stack = address :: below)
    (ho : address.toInt < 0 ∨ machine.memory.cells.size ≤ address.toInt) :
    Refuses machine "@" (.addressOutOfRange address machine.memory.cells.size)

/-- What a word that finds all it needs makes of the machine. Only printing depends on more: the
sink may refuse the line, which is reported when the value is already gone. -/
inductive Performs (machine : Machine) : String → Machine → Prop where
  | print {value : Int64} {below : List Int64} (h : machine.stack = value :: below)
    (ht : machine.sink.refusal machine.sink.offered = none) :
    Performs machine "."
      { machine with
        stack := below
        sink := { machine.sink with
          written := machine.sink.written ++ value.toInt.repr ++ "\n"
          offered := machine.sink.offered + 1 } }
  | printRefused {value : Int64} {below : List Int64} {reason : String}
    (h : machine.stack = value :: below)
    (ht : machine.sink.refusal machine.sink.offered = some reason) :
    Performs machine "."
      { machine with
        stack := below
        sink := { machine.sink with offered := machine.sink.offered + 1 }
        reports := machine.reports.push (.outputFailed reason) }
  | drop {value : Int64} {below : List Int64} (h : machine.stack = value :: below) :
    Performs machine "drop" { machine with stack := below }
  | toReturn {value : Int64} {below : List Int64} (h : machine.stack = value :: below) :
    Performs machine ">r"
      { machine with stack := below, returnStack := value :: machine.returnStack }
  | fromReturn {value : Int64} {below : List Int64} (h : machine.returnStack = value :: below) :
    Performs machine "r>"
      { machine with stack := value :: machine.stack, returnStack := below }
  | add {top second : Int64} {below : List Int64} (h : machine.stack = top :: second :: below) :
    Performs machine "+" { machine with stack := (top + second) :: below }
  | nand {top second : Int64} {below : List Int64} (h : machine.stack = top :: second :: below) :
    Performs machine "nand" { machine with stack := ~~~(top &&& second) :: below }
  | store {address value : Int64} {below : List Int64} {cell : Nat} {cells : Array Int64}
    (h : machine.stack = address :: value :: below) (ha : address.toInt = cell)
    (hc : cell < machine.memory.cells.size)
    (hs : ∀ index, cells[index]? = if index = cell then some value else machine.memory.cells[index]?) :
    Performs machine "!" { machine with stack := below, memory := ⟨cells⟩ }
  | fetch {address value : Int64} {below : List Int64} {cell : Nat}
    (h : machine.stack = address :: below) (ha : address.toInt = cell)
    (hc : machine.memory.cells[cell]? = some value) :
    Performs machine "@" { machine with stack := value :: below }
  | isNegative {value : Int64} {below : List Int64} (h : machine.stack = value :: below) :
    Performs machine "0<" { machine with stack := (if value.toInt < 0 then -1 else 0) :: below }

theorem runStore_of_cell? {address value : Int64} {below : List Int64}
    {cell : Fin machine.memory.size} (h : machine.stack = address :: value :: below)
    (hc : machine.memory.cell? address = some cell) :
    runStore machine = { machine with stack := below, memory := machine.memory.store cell value } := by
  simp only [runStore,h,hc]

theorem runFetch_of_cell? {address : Int64} {below : List Int64} {cell : Fin machine.memory.size}
    (h : machine.stack = address :: below) (hc : machine.memory.cell? address = some cell) :
    runFetch machine = { machine with stack := machine.memory.load cell :: below } := by
  simp only [runFetch,h,hc]

private theorem exists_name {word : String} (h : word ∈ words) :
    ∃ primitive : Primitive, primitive.name = word := by
  have hn : ∀ word ∈ words, (ofName? word).map name = some word := by decide
  obtain ⟨primitive,-,hp⟩ := Option.map_eq_some_iff.mp (hn word h)
  exact ⟨primitive,hp⟩

private theorem run_of_underflow {primitive : Primitive} {needed : Nat}
    (hw : (primitive.name, needed) ∈ operands) (h : machine.stack.length < needed) :
    primitive.run machine = { machine with
      reports := machine.reports.push
        (.stackUnderflow primitive.name needed machine.stack.length) } := by
  cases primitive with
  | add | nand | store =>
    obtain rfl : needed = 2 := by simpa [operands,name] using hw
    rcases machine with ⟨_,_,_,_,_ | ⟨top,_ | ⟨second,below⟩⟩,_,_,_,_,_,_⟩
    · rfl
    · rfl
    · simp only [List.length_cons] at h
      omega
  | print | drop | toReturn | fetch | isNegative =>
    obtain rfl : needed = 1 := by simpa [operands,name] using hw
    rcases machine with ⟨_,_,_,_,_ | ⟨top,below⟩,_,_,_,_,_,_⟩
    · rfl
    · simp at h
  | fromReturn => simp [operands,name] at hw

private theorem exists_cons_cons {values : List Int64} (h : 2 ≤ values.length) :
    ∃ top second below, values = top :: second :: below := by
  obtain ⟨top,rest,rfl⟩ := List.exists_cons_of_length_pos (Nat.lt_of_succ_lt h)
  obtain ⟨second,below,rfl⟩ := List.exists_cons_of_length_pos (Nat.lt_of_succ_lt_succ h)
  exact ⟨top,second,below,rfl⟩

private theorem exists_performs_store {address value : Int64} {below : List Int64}
    (h : ∀ fault, ¬ Refuses machine "!" fault) (hs : machine.stack = address :: value :: below) :
    ∃ after, Performs machine "!" after := by
  cases hc : machine.memory.cell? address with
  | none => exact absurd (.store hs (Memory.cell?_eq_none_iff.mp hc)) (h _)
  | some cell =>
    exact ⟨_,.store hs (Memory.cell?_eq_some_iff.mp hc) cell.isLt
      (machine.memory.getElem?_store cell value)⟩

private theorem exists_performs_fetch {address : Int64} {below : List Int64}
    (h : ∀ fault, ¬ Refuses machine "@" fault) (hs : machine.stack = address :: below) :
    ∃ after, Performs machine "@" after := by
  cases hc : machine.memory.cell? address with
  | none => exact absurd (.fetch hs (Memory.cell?_eq_none_iff.mp hc)) (h _)
  | some cell =>
    exact ⟨_,.fetch hs (Memory.cell?_eq_some_iff.mp hc) (machine.memory.getElem?_load cell)⟩

/-- A word that has nothing to report does its work. -/
theorem exists_performs {word : String} (hw : word ∈ words)
    (h : ∀ fault, ¬ Refuses machine word fault) : ∃ after, Performs machine word after := by
  have hn : ∀ needed, (word, needed) ∈ operands → needed ≤ machine.stack.length :=
    fun needed hm => Nat.le_of_not_lt fun hl => h _ (.underflow hm hl)
  have hone : (word, 1) ∈ operands → ∃ top below, machine.stack = top :: below :=
    fun hm => List.exists_cons_of_length_pos (hn 1 hm)
  have htwo : (word, 2) ∈ operands → ∃ top second below, machine.stack = top :: second :: below :=
    fun hm => exists_cons_cons (hn 2 hm)
  obtain ⟨primitive,rfl⟩ := exists_name hw
  cases primitive with
  | print =>
    obtain ⟨value,below,hs⟩ := hone (by decide)
    cases ht : machine.sink.refusal machine.sink.offered with
    | none => exact ⟨_,.print hs ht⟩
    | some reason => exact ⟨_,.printRefused hs ht⟩
  | drop =>
    obtain ⟨value,below,hs⟩ := hone (by decide)
    exact ⟨_,.drop hs⟩
  | toReturn =>
    obtain ⟨value,below,hs⟩ := hone (by decide)
    exact ⟨_,.toReturn hs⟩
  | isNegative =>
    obtain ⟨value,below,hs⟩ := hone (by decide)
    exact ⟨_,.isNegative hs⟩
  | fetch =>
    obtain ⟨address,below,hs⟩ := hone (by decide)
    exact exists_performs_fetch h hs
  | add =>
    obtain ⟨top,second,below,hs⟩ := htwo (by decide)
    exact ⟨_,.add hs⟩
  | nand =>
    obtain ⟨top,second,below,hs⟩ := htwo (by decide)
    exact ⟨_,.nand hs⟩
  | store =>
    obtain ⟨address,value,below,hs⟩ := htwo (by decide)
    exact exists_performs_store h hs
  | fromReturn =>
    cases hr : machine.returnStack with
    | nil => exact absurd (.returnUnderflow hr) (h _)
    | cons value below => exact ⟨_,.fromReturn hr⟩

private theorem not_refuses {word : String}
    (ho : ∀ entry ∈ operands, entry.1 = word → entry.2 ≤ machine.stack.length) (hr : word ≠ "r>")
    (ha : ∃ address below, machine.stack = address :: below ∧
      0 ≤ address.toInt ∧ address.toInt < machine.memory.cells.size) (fault : Fault) :
    ¬ Refuses machine word fault := by
  intro h
  obtain ⟨address,below,hs,hi⟩ := ha
  cases h with
  | underflow hw hl => exact absurd hl (Nat.not_lt_of_le (ho _ hw rfl))
  | returnUnderflow => exact hr rfl
  | store ht hx =>
    cases hs.symm.trans ht
    omega
  | fetch ht hx =>
    cases hs.symm.trans ht
    omega

end Primitive

namespace Machine
variable {machine after : Machine} {word : String} {fault : Fault}

/-- The node finishes on the machine `after`, and nodes behind it go on from there. -/
def Yields (machine : Machine) (node : Program → Program) (after : Machine) : Prop :=
  machine.evaluate (node .nil) = .finished after ∧
    ∀ rest, machine.evaluate (node rest) = after.evaluate rest

private theorem yields_of_evaluate {node : Program → Program}
    (h : ∀ rest, machine.evaluate (node rest) = after.evaluate rest) : Yields machine node after :=
  ⟨(h .nil).trans (evaluate_nil after),h⟩

private theorem yields_primitive (primitive : Primitive) (h : primitive.run machine = after) :
    Yields machine (.call primitive.name) after :=
  yields_of_evaluate fun rest => by rw [evaluate_primitive,h]

private theorem yields_of_refuses (h : Primitive.Refuses machine word fault) :
    Yields machine (.call word) { machine with reports := machine.reports.push fault } := by
  cases h with
  | underflow hw hl =>
    obtain ⟨primitive,rfl⟩ :=
      Primitive.exists_name (List.mem_cons_of_mem _ (List.mem_map_of_mem hw))
    exact yields_primitive primitive (Primitive.run_of_underflow hw hl)
  | returnUnderflow hs =>
    have hr : Primitive.fromReturn.run machine = machine.report (.returnStackUnderflow "r>") := by
      simp only [Primitive.run,Primitive.runFromReturn,hs,Primitive.name]
    exact yields_primitive .fromReturn hr
  | @store address _ _ hs ho =>
    have hr : Primitive.store.run machine =
        machine.report (.addressOutOfRange address machine.memory.size) := by
      simp only [Primitive.run,Primitive.runStore,hs,Memory.cell?_eq_none_iff.mpr ho]
    exact yields_primitive .store hr
  | @fetch address _ hs ho =>
    have hr : Primitive.fetch.run machine =
        machine.report (.addressOutOfRange address machine.memory.size) := by
      simp only [Primitive.run,Primitive.runFetch,hs,Memory.cell?_eq_none_iff.mpr ho]
    exact yields_primitive .fetch hr

private theorem yields_store {address value : Int64} {below : List Int64} {cell : Nat}
    {cells : Array Int64} (h : machine.stack = address :: value :: below)
    (ha : address.toInt = cell) (hc : cell < machine.memory.cells.size)
    (hs : ∀ index, cells[index]? = if index = cell then some value else machine.memory.cells[index]?) :
    Yields machine (.call "!") { machine with stack := below, memory := ⟨cells⟩ } := by
  have hm : machine.memory.store ⟨cell,hc⟩ value = ⟨cells⟩ := by
    refine congrArg Memory.mk (Array.ext_getElem? fun index => ?_)
    exact (machine.memory.getElem?_store ⟨cell,hc⟩ value index).trans (hs index).symm
  have ho : machine.memory.cell? address = some ⟨cell,hc⟩ := Memory.cell?_eq_some_iff.mpr ha
  rw [← hm]
  exact yields_primitive .store (Primitive.runStore_of_cell? h ho)

private theorem yields_of_performs (h : Primitive.Performs machine word after) :
    Yields machine (.call word) after := by
  cases h with
  | print hs ht =>
    refine yields_primitive .print ?_
    simp only [Primitive.run,Primitive.runPrint,hs,Sink.writeLine,ht]
    rfl
  | printRefused hs ht =>
    refine yields_primitive .print ?_
    simp only [Primitive.run,Primitive.runPrint,hs,Sink.writeLine,ht]
    rfl
  | drop hs => exact yields_primitive .drop (by simp only [Primitive.run,Primitive.runDrop,hs])
  | toReturn hs =>
    exact yields_primitive .toReturn (by simp only [Primitive.run,Primitive.runToReturn,hs])
  | fromReturn hr =>
    exact yields_primitive .fromReturn (by simp only [Primitive.run,Primitive.runFromReturn,hr])
  | add hs => exact yields_primitive .add (by simp only [Primitive.run,Primitive.combine,hs])
  | nand hs => exact yields_primitive .nand (by simp only [Primitive.run,Primitive.combine,hs])
  | store hs ha hc hm => exact yields_store hs ha hc hm
  | @fetch address _ _ cell hs ha hm =>
    obtain ⟨hc,rfl⟩ := Array.getElem?_eq_some_iff.mp hm
    have ho : machine.memory.cell? address = some ⟨cell,hc⟩ := Memory.cell?_eq_some_iff.mpr ha
    exact yields_primitive .fetch (Primitive.runFetch_of_cell? hs ho)
  | isNegative hs =>
    refine yields_primitive .isNegative ?_
    simp only [Primitive.run,Primitive.runIsNegative,hs,Int64.lt_iff_toInt_lt]
    rfl

private theorem yields_branch_of_underflow (h : machine.stack = []) (consequence alternative : Program) :
    Yields machine (.ifElse consequence alternative)
      { machine with reports := machine.reports.push (.stackUnderflow "if" 1 0) } := by
  apply yields_of_evaluate
  intro rest
  rw [evaluate_ifElse]
  rcases machine with ⟨_,_,_,_,_ | ⟨flag,below⟩,_,_,_,_,_,_⟩
  · rfl
  · cases h

private theorem yields_loop_of_underflow (h : machine.stack.length < 2) (body : Program) :
    Yields machine (.loop body)
      { machine with reports :=
          machine.reports.push (.stackUnderflow "do" 2 machine.stack.length) } := by
  apply yields_of_evaluate
  intro rest
  have ha := evaluate_append machine (.loop body .nil) rest
  rw [evaluate_loop,countedLoop] at ha
  rcases machine with ⟨_,_,_,_,_ | ⟨limit,_ | ⟨start,below⟩⟩,_,_,_,_,_,_⟩
  · exact ha
  · exact ha
  · simp only [List.length_cons] at h
    omega

/-- A step whose check fails adds the one report that says so and changes nothing else: neither a
branch nor a body is run, and the next node is. A word that refuses nothing does exactly its work. -/
theorem failed_check_only_reports (machine : Machine) :
    (∀ word fault, Primitive.Refuses machine word fault →
      Yields machine (.call word) { machine with reports := machine.reports.push fault }) ∧
    (∀ word ∈ Primitive.words, (∀ fault, ¬ Primitive.Refuses machine word fault) →
      ∃ after, Primitive.Performs machine word after ∧ Yields machine (.call word) after) ∧
    (machine.stack = [] → ∀ consequence alternative,
      let after : Machine :=
        { machine with reports := machine.reports.push (.stackUnderflow "if" 1 0) }
      Yields machine (.ifThen consequence) after ∧
        Yields machine (.ifElse consequence alternative) after) ∧
    (machine.stack.length < 2 → ∀ body,
      Yields machine (.loop body)
        { machine with reports :=
            machine.reports.push (.stackUnderflow "do" 2 machine.stack.length) }) := by
  refine ⟨fun _ _ => yields_of_refuses,?_,?_,yields_loop_of_underflow⟩
  · intro word hw h
    obtain ⟨after,hp⟩ := Primitive.exists_performs hw h
    exact ⟨after,hp,yields_of_performs hp⟩
  · intro h consequence alternative after
    have hb := yields_branch_of_underflow h consequence
    refine ⟨yields_of_evaluate fun rest => ?_,hb alternative⟩
    rw [evaluate_ifThen]
    exact (hb .nil).2 rest

/-- The second of two cells is stored to and fetched, and there is no third. An empty stack has no
flag, and a single value is no range. -/
theorem failed_check_only_reports_at_cells :
    let empty := blank ⟨#[4, 5]⟩ .unlimited 1
    Yields { empty with stack := [1, 7, 3] } (.call "!")
        { empty with stack := [3], memory := ⟨#[4, 7]⟩ } ∧
      Yields { empty with stack := [1, 7] } (.call "@") { empty with stack := [5, 7] } ∧
      Yields { empty with stack := [2, 7] } (.call "!")
        { empty with stack := [2, 7], reports := #[.addressOutOfRange 2 2] } ∧
      Yields empty (.ifThen (.push 5 .nil))
        { empty with reports := #[.stackUnderflow "if" 1 0] } ∧
      Yields { empty with stack := [3] } (.loop (.push 5 .nil))
        { empty with stack := [3], reports := #[.stackUnderflow "do" 2 1] } := by
  intro empty
  have hs := (failed_check_only_reports { empty with stack := [1, 7, 3] }).2.1 "!" (by decide)
  have hf := (failed_check_only_reports { empty with stack := [1, 7] }).2.1 "@" (by decide)
  have hr := (failed_check_only_reports { empty with stack := [2, 7] }).1 "!"
  have hb := (failed_check_only_reports empty).2.2.1 rfl
  have hl := (failed_check_only_reports { empty with stack := [3] }).2.2.2 (by decide)
  refine ⟨?_,?_,hr _ (.store rfl (by decide)),(hb (.push 5 .nil) .nil).1,hl _⟩
  · obtain ⟨after,-,hy⟩ := hs (Primitive.not_refuses (by decide) (by decide) ⟨_,_,rfl,by decide⟩)
    cases Outcome.finished.inj (hy.1.symm.trans rfl)
    exact hy
  · obtain ⟨after,-,hy⟩ := hf (Primitive.not_refuses (by decide) (by decide) ⟨_,_,rfl,by decide⟩)
    cases Outcome.finished.inj (hy.1.symm.trans rfl)
    exact hy

end Machine

end NandStack
