import NandStack.Machine.Evaluate
import NandStack.Proofs.Machine.Sequence
import NandStack.Proofs.Program.Joining

/-!
Pieces: a text that is made of lines of programs can be evaluated as a whole or piece by piece. A
piece that is no program shows the difference: it keeps the pieces before it from being run.
-/

namespace NandStack

private theorem Outcome.mapError_andThen {ε δ : Type} (change : ε → δ) (outcome : Outcome ε)
    (next : Machine → Outcome ε) :
    (outcome.andThen next).mapError change =
      (outcome.mapError change).andThen fun machine => (next machine).mapError change := by
  cases outcome <;> rfl

namespace Machine

open Program (Readable ofSource)

theorem evaluateSource_of_ok (machine : Machine) {source : String} {program : Program}
    (h : ofSource source = .ok program) :
    machine.evaluateSource source = (machine.evaluate program).mapError .runtime := by
  rw [evaluateSource,h]

private theorem evaluateSource_of_error (machine : Machine) {source : String} {error : ParseError}
    (h : ofSource source = .error error) :
    machine.evaluateSource source = .aborted (.parse error) machine := by
  rw [evaluateSource,h]

/-- A text fails as it is no program, or as its program does. -/
theorem error?_evaluateSource (machine : Machine) (source : String) :
    (∃ error, ofSource source = .error error ∧
      (machine.evaluateSource source).error? = some (.parse error)) ∨
    ∃ program, ofSource source = .ok program ∧
      (machine.evaluateSource source).error? = (machine.evaluate program).error?.map .runtime := by
  cases hp : ofSource source with
  | error error =>
    rw [evaluateSource_of_error _ hp]
    exact .inl ⟨error,rfl,rfl⟩
  | ok program =>
    rw [evaluateSource_of_ok _ hp,Outcome.error?_mapError]
    exact .inr ⟨program,rfl,rfl⟩

/-- A change of the machine that evaluations of programs go along with, those of texts go along with
too. -/
theorem evaluateSource_mapMachine {change : Machine → Machine} {machine : Machine} {source : String}
    (h : ∀ program, ofSource source = .ok program →
      (change machine).evaluate program = (machine.evaluate program).mapMachine change) :
    (change machine).evaluateSource source = (machine.evaluateSource source).mapMachine change := by
  cases hp : ofSource source with
  | error error =>
    rw [evaluateSource_of_error _ hp,evaluateSource_of_error _ hp]
    rfl
  | ok program =>
    rw [evaluateSource_of_ok _ hp,evaluateSource_of_ok _ hp,h program hp]
    cases machine.evaluate program <;> rfl

/-- Evaluates texts in turn up to the first that is aborted. -/
def evaluateEach : List String → Machine → Outcome EvalError
  | [], machine => .finished machine
  | source :: rest, machine => (machine.evaluateSource source).andThen (evaluateEach rest)

/-- Two programs on lines of their own are evaluated one after the other. -/
theorem evaluateSource_lineFeed (machine : Machine) {first second : String}
    (hf : Readable first) (hs : Readable second) :
    machine.evaluateSource (first ++ "\n" ++ second) =
      (machine.evaluateSource first).andThen fun after => after.evaluateSource second := by
  obtain ⟨program,hp⟩ := hf
  obtain ⟨next,hn⟩ := hs
  rw [evaluateSource_of_ok _ (Program.ofSource_lineFeed hp hn),evaluate_append,
    Outcome.mapError_andThen,evaluateSource_of_ok _ hp]
  congr 1
  funext after
  exact (evaluateSource_of_ok after hn).symm

private theorem evaluateSource_intercalate (machine : Machine) {sources : List String}
    (h : ∀ source ∈ sources, Readable source) :
    machine.evaluateSource ("\n".intercalate sources) = machine.evaluateEach sources := by
  induction sources generalizing machine with
  | nil =>
    have hn : ofSource ("\n".intercalate []) = .ok .nil := rfl
    rw [machine.evaluateSource_of_ok hn,evaluate,runWithin_eq_run]
    rfl
  | cons source rest ih =>
    have hs := h source List.mem_cons_self
    have hr : ∀ other ∈ rest, Readable other := fun other hm => h other (List.mem_cons_of_mem _ hm)
    cases rest with
    | nil =>
      rw [String.intercalate_singleton]
      exact (Outcome.andThen_finished _).symm
    | cons next rest =>
      rw [String.intercalate_cons_cons,
        evaluateSource_lineFeed machine hs (Program.readable_intercalate hr)]
      exact congrArg _ (funext fun after => ih after hr)

/-- Programs joined by line feeds are evaluated as they are in turn, up to the first that is
aborted. If the last piece alone is no program, nothing is run at all, and the error is the one
that this piece has on its own, as many lines further down as there are line feeds before it. -/
theorem evaluateSource_in_pieces (machine : Machine) :
    (∀ sources : List String, (∀ source ∈ sources, Readable source) →
      machine.evaluateSource ("\n".intercalate sources) = machine.evaluateEach sources) ∧
    (∀ (front : List String) (last : String) (error : ParseError),
      (∀ source ∈ front, Readable source) → ofSource last = .error error →
      ∃ before, "\n".intercalate (front ++ [last]) = before ++ last ∧
        machine.evaluateSource ("\n".intercalate (front ++ [last])) =
          .aborted (.parse (error.moved (.below (before.toList.count '\n')))) machine) := by
  constructor
  · intro sources h
    exact machine.evaluateSource_intercalate h
  · intro front last error hf hl
    obtain ⟨before,hb,he⟩ := Program.ofSource_intercalate_error hf hl
    exact ⟨before,hb,machine.evaluateSource_of_error he⟩

/-- The second of three pieces is aborted and the third never reached; the stray terminator in the
second line of a last piece is found in line five. -/
theorem evaluateSource_in_pieces_aborted :
    let machine := blank ⟨#[]⟩ .unlimited 2
    let sources := ["1\n", ": f f ; f", "3"]
    let front := ["1 \n", " "]
    let last := "2\n ; 3"
    (∀ source ∈ sources, Readable source) ∧
      machine.evaluateSource ("\n".intercalate sources) = machine.evaluateEach sources ∧
      (machine.evaluateEach sources).error? = some (.runtime (.nestingTooDeep 2)) ∧
      (machine.evaluateEach sources).machine.stack = [1] ∧
      (∀ source ∈ front, Readable source) ∧
      ofSource last = .error (.unexpectedToken ";" ⟨2, 2⟩) ∧
      machine.evaluateSource ("\n".intercalate (front ++ [last])) =
        .aborted (.parse (.unexpectedToken ";" ⟨5, 2⟩)) machine := by
  intro machine sources front last
  have hs : ∀ source ∈ sources, Readable source := by decide
  have hf : ∀ source ∈ front, Readable source := by decide
  have hl : ofSource last = .error (.unexpectedToken ";" ⟨2, 2⟩) := by decide
  obtain ⟨before,hb,he⟩ := (evaluateSource_in_pieces machine).2 front last _ hf hl
  have hj : "\n".intercalate (front ++ [last]) = "1 \n\n \n" ++ last := by decide
  have hc : before = "1 \n\n \n" := (String.append_left_inj last).mp (hb.symm.trans hj)
  have hn : before.toList.count '\n' = 3 := by
    rw [hc]
    decide
  rw [hn] at he
  refine ⟨hs,(evaluateSource_in_pieces machine).1 sources hs,?_,?_,hf,hl,he⟩
  · decide +kernel
  · decide +kernel

end Machine

end NandStack
