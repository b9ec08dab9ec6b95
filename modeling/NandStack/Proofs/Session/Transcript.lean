import NandStack.Proofs.Program.Places
import NandStack.Proofs.Session.Backlog
import NandStack.Proofs.Session.Lines
import NandStack.Session.CommandLine

/-!
Transcripts: what a session shows is put together from evaluations of the same texts, one after the
other on one machine on which nothing is ever drained. Every text that is printed and every report has
its place behind the text that caused it, and nothing else is shown.
-/

namespace NandStack.Session

structure Stage where
  before : Machine
  source : String

/-- Prints first, then the reports, a line each, then why the evaluation was aborted, if it was. -/
def shown (printed : String) (reports : List Fault) (error : Option EvalError) : String :=
  printed ++ (String.join (reports.map fun fault => "\t" ++ fault.message ++ "\n") ++
    match error with
    | some error => "ERROR: " ++ error.message ++ "\n"
    | none => "")

namespace Stage
variable (stage : Stage)

def outcome : Outcome EvalError :=
  stage.before.evaluateSource stage.source

def after : Machine :=
  stage.outcome.machine

/-- What the sink has taken since the stage began. -/
def printed : String :=
  String.ofList (stage.after.sink.written.toList.drop stage.before.sink.written.length)

def reported : List Fault :=
  stage.after.reports.toList.drop stage.before.reports.size

/-- What is shown of the stage. Reports that have been waiting come before its own. -/
def account (waiting : List Fault) : String :=
  shown stage.printed (waiting ++ stage.reported) stage.outcome.error?

end Stage

def stages (machine : Machine) : List String → List Stage
  | [] => []
  | source :: rest => ⟨machine, source⟩ :: stages (machine.evaluateSource source).machine rest

def concluded (machine : Machine) (sources : List String) : Machine :=
  sources.foldl (fun now source => (now.evaluateSource source).machine) machine

/-- What is shown of some lines: each has a prompt before it and the stack behind it, and one more
prompt comes last. -/
def conversation (waiting : List Fault) (machine : Machine) : List String → String
  | [] => "> "
  | line :: rest =>
    let stage : Stage := ⟨machine, line⟩
    let stack := stage.after.stack.reverse.map fun value => value.toInt.repr
    "> " ++ (stage.account waiting ++ ("Stack: [" ++ ", ".intercalate stack ++ "]\n")) ++
      conversation [] stage.after rest

def transcript (waiting : List Fault) (machine : Machine) (file : Option String)
    (typed : List String) : String :=
  match file with
  | none => conversation waiting machine typed
  | some source =>
    let stage : Stage := ⟨machine, source⟩
    stage.account waiting ++ conversation [] stage.after typed

/-- The error is placed in the first line, at the column of one of its characters, and its message
says so. The literal that it names, if it names one, stands there. -/
def PlacedIn (line : String) (error : ParseError) : Prop :=
  ∃ front rest, line.toList = front ++ rest ∧ rest ≠ [] ∧ error.place = ⟨1, front.length + 1⟩ ∧
    (∃ before behind, error.message = before ++ "1:" ++ (front.length + 1).repr ++ behind) ∧
    ∀ literal, error.literal? = some literal → literal.toList <+: rest

namespace Stage
variable (stage : Stage)

private def alone : Outcome EvalError :=
  stage.before.drained.evaluateSource stage.source

private theorem outcome_eq : stage.outcome =
    stage.alone.mapMachine (.behind stage.before.sink.written stage.before.reports) :=
  Machine.evaluateSource_eq_behind stage.before stage.source

private theorem after_eq :
    stage.after = stage.alone.machine.behind stage.before.sink.written stage.before.reports := by
  rw [after,outcome_eq,Outcome.machine_mapMachine]

private theorem printed_eq : stage.printed = stage.alone.machine.sink.written := by
  rw [printed,after_eq,Machine.behind,String.toList_append,← String.length_toList,List.drop_left,
    String.ofList_toList]

private theorem reported_eq : stage.reported = stage.alone.machine.reports.toList := by
  rw [reported,after_eq,Machine.behind,Array.toList_append,← Array.length_toList,List.drop_left]

private theorem account_eq (waiting : List Fault) : stage.account waiting =
    shown stage.alone.machine.sink.written (waiting ++ stage.alone.machine.reports.toList)
      stage.alone.error? := by
  rw [account,printed_eq,reported_eq,outcome_eq,Outcome.error?_mapMachine]

private theorem written_after : stage.after.sink.written = stage.before.sink.written ++ stage.printed := by
  rw [printed_eq,after_eq]
  rfl

private theorem reports_after :
    stage.after.reports.toList = stage.before.reports.toList ++ stage.reported := by
  rw [reported_eq,after_eq,Machine.behind,Array.toList_append]

end Stage

private theorem written_concluded (machine : Machine) (sources : List String) :
    (concluded machine sources).sink.written =
      machine.sink.written ++ String.join ((stages machine sources).map Stage.printed) := by
  induction sources generalizing machine with
  | nil => exact String.append_empty.symm
  | cons source rest ih =>
    have hw := Stage.written_after ⟨machine,source⟩
    rw [stages,List.map_cons,String.join_cons,← String.append_assoc,← hw]
    exact ih _

private theorem reports_concluded (machine : Machine) (sources : List String) :
    (concluded machine sources).reports.toList =
      machine.reports.toList ++ (stages machine sources).flatMap Stage.reported := by
  induction sources generalizing machine with
  | nil => exact (List.append_nil _).symm
  | cons source rest ih =>
    have hr := Stage.reports_after ⟨machine,source⟩
    rw [stages,List.flatMap_cons,← List.append_assoc,← hr]
    exact ih _

private theorem respond_eq_shown (machine : Machine) (source : String) :
    let outcome := machine.drainOutput.evaluateSource source
    respond machine source = (outcome.machine.drainReports,
      shown outcome.machine.sink.written outcome.machine.reports.toList outcome.error?) :=
  rfl

/-- What is shown of a text: what was printed before is not shown again, what was reported is. -/
theorem respond_eq (machine : Machine) (source : String) :
    let stage : Stage := ⟨machine, source⟩
    respond machine source = (Machine.drainReports { stage.after with
        sink := { stage.after.sink with written := stage.printed } },
      stage.account machine.reports.toList) := by
  intro stage
  have ho : machine.drainOutput.evaluateSource source =
      stage.alone.mapMachine (.behind "" machine.reports) :=
    Machine.evaluateSource_eq_behind machine.drainOutput source
  rw [respond_eq_shown,ho,Stage.account_eq,Stage.printed_eq,Stage.after_eq]
  simp only [Outcome.machine_mapMachine,Outcome.error?_mapMachine,Machine.behind,Machine.drainReports,
    String.empty_append,Array.toList_append]

variable {machine library : Machine} {line : String}

-- What is waiting has no part in an evaluation, so that a session that shows everything at once agrees
-- with the library on the rest of the machine.
private theorem account_congr (h : machine.drained = library.drained) (source : String)
    (waiting : List Fault) :
    Stage.account ⟨machine, source⟩ waiting = Stage.account ⟨library, source⟩ waiting := by
  rw [Stage.account_eq,Stage.account_eq,Stage.alone,Stage.alone,h]

private theorem drained_of_shown (machine : Machine) (text : String) :
    (Machine.drainReports { machine with sink := { machine.sink with written := text } }).drained =
      machine.drained :=
  rfl

private theorem drained_respond (h : machine.drained = library.drained) (source : String) :
    (respond machine source).1.drained = (Stage.after ⟨library, source⟩).drained := by
  rw [respond_eq,drained_of_shown,Stage.after_eq,Stage.after_eq,Machine.drained_behind,
    Machine.drained_behind,Stage.alone,Stage.alone,h]

private theorem reports_respond (machine : Machine) (source : String) :
    (respond machine source).1.reports.toList = [] := by
  rw [respond_eq]
  rfl

private theorem answers_cons (hx : isExit line = false) (rest : List String) :
    answers machine (line :: rest) =
      ((respond machine line).1, (respond machine line).2 ++ stackLine (respond machine line).1) ::
        answers (respond machine line).1 rest := by
  rw [answers,answer?,hx]
  rfl

private theorem dialogue_cons (hx : isExit line = false) (rest : List String) :
    dialogue machine (line :: rest) =
      prompt ++ ((respond machine line).2 ++ stackLine (respond machine line).1) ++
        dialogue (respond machine line).1 rest := by
  rw [dialogue,answers_cons hx,List.map_cons,String.join_cons,dialogue,String.append_assoc]

private theorem entered_cons (hx : isExit line = false) (rest : List String) :
    entered (line :: rest) = line :: entered rest := by
  rw [entered,List.takeWhile_cons,hx]
  rfl

private theorem entered_exit (hx : isExit line = true) (rest : List String) :
    entered (line :: rest) = [] := by
  rw [entered,List.takeWhile_cons,hx]
  rfl

private theorem answers_exit (hx : isExit line = true) (rest : List String) :
    answers machine (line :: rest) = [] := by
  rw [answers,answer?,hx]
  rfl

private theorem drained_answers (h : machine.drained = library.drained) (lines : List String) :
    (answers machine lines).map (fun answer => answer.1.drained) =
      (stages library (entered lines)).map fun stage => stage.after.drained := by
  induction lines generalizing machine library with
  | nil => rfl
  | cons line rest ih =>
    cases hx : isExit line with
    | true =>
      rw [answers_exit hx,entered_exit hx]
      rfl
    | false =>
      have hr := drained_respond h line
      rw [answers_cons hx,entered_cons hx,stages,List.map_cons,List.map_cons]
      exact congrArg₂ List.cons hr (ih hr)

private theorem dialogue_eq (h : machine.drained = library.drained) (lines : List String) :
    dialogue machine lines = conversation machine.reports.toList library (entered lines) := by
  induction lines generalizing machine library with
  | nil => rfl
  | cons line rest ih =>
    cases hx : isExit line with
    | true =>
      rw [dialogue,answers_exit hx,entered_exit hx]
      rfl
    | false =>
      have hr := drained_respond h line
      have ht : (respond machine line).2 =
          Stage.account ⟨library, line⟩ machine.reports.toList := by
        rw [respond_eq]
        exact account_congr h line _
      have hs := congrArg Machine.stack hr
      rw [Machine.stack_drained,Machine.stack_drained] at hs
      rw [dialogue_cons hx,entered_cons hx,ih hr,reports_respond,ht,stackLine,hs]
      rfl

private theorem drained_load (machine : Machine) (path : String) (file : Option String) :
    (load machine (file.map fun source => (path, .ok source))).1.drained =
      (concluded machine file.toList).drained := by
  cases file with
  | none => rfl
  | some source =>
    rw [Option.map_some,load,Option.toList_some,concluded,List.foldl_cons,List.foldl_nil,
      drained_respond rfl source]
    rfl

private theorem hold_eq (machine : Machine) (path : String) (file : Option String) (input : String) :
    hold machine (file.map fun source => (path, .ok source)) true input =
      transcript machine.reports.toList machine file (entered (lines input)) := by
  have hd := dialogue_eq (drained_load machine path file) (lines input)
  cases file with
  | none =>
    have ht : hold machine none true input = "" ++ dialogue machine (lines input) := rfl
    rw [Option.map_none,ht,String.empty_append]
    exact hd
  | some source =>
    have ht : hold machine (some (path, .ok source)) true input =
        (respond machine source).2 ++ dialogue (respond machine source).1 (lines input) := rfl
    have hr : dialogue (respond machine source).1 (lines input) =
        conversation (respond machine source).1.reports.toList (concluded machine [source])
          (entered (lines input)) := hd
    rw [Option.map_some,ht,hr,reports_respond,respond_eq]
    rfl

private theorem source_mem_of_mem_stages {machine : Machine} {sources : List String} {stage : Stage}
    (h : stage ∈ stages machine sources) : stage.source ∈ sources := by
  induction sources generalizing machine with
  | nil => cases h
  | cons source rest ih =>
    rcases List.mem_cons.mp h with rfl | hm
    · exact List.mem_cons_self
    · exact List.mem_cons_of_mem _ (ih hm)

private theorem ofSource_of_error? {stage : Stage} {error : ParseError}
    (h : stage.outcome.error? = some (.parse error)) :
    Program.ofSource stage.source = .error error := by
  rcases stage.before.error?_evaluateSource stage.source with ⟨reason,hp,he⟩ | ⟨program,-,he⟩
  · cases h.symm.trans he
    exact hp
  · obtain ⟨fault,-,hf⟩ := Option.map_eq_some_iff.mp (he.symm.trans h)
    cases hf

theorem placedIn_of_error? {machine : Machine} {input : String} {stage : Stage} {error : ParseError}
    (hm : stage ∈ stages machine (entered (lines input)))
    (he : stage.outcome.error? = some (.parse error)) : PlacedIn stage.source error := by
  have hs : stage.source ∈ lines input :=
    (List.takeWhile_prefix _).subset (source_mem_of_mem_stages hm)
  obtain ⟨front,rest,ht,hn,hp,hl⟩ := Program.place_of_line (not_mem_dropLast_of_mem_lines hs)
    (ofSource_of_error? he)
  obtain ⟨before,behind,hb⟩ := error.message_place
  refine ⟨front,rest,ht,hn,hp,⟨before,behind,?_⟩,hl⟩
  have hf : Nat.repr 1 ++ ":" = "1:" := by decide
  rw [hb,hp,Position.text,hf]
  simp only [String.append_assoc]

/-- A dialogue is exactly the library session in which a file and the lines up to the exit line are
evaluated in turn and nothing is drained. Its output is their transcript, with what has been reported
before in front of what the first of them reports; it passes through the same machines, but for what
has been shown already; and all that is printed and reported on the way belongs to one of the stages.
What is wrong with a line is said with the first line and the column of one of its characters. -/
theorem dialogue_is_library_session (machine : Machine) (path : String) (file : Option String)
    (input : String) :
    let opening := load machine (file.map fun source => (path, .ok source))
    let loaded := concluded machine file.toList
    ∃ typed, Entered input typed ∧
      hold machine (file.map fun source => (path, .ok source)) true input =
        transcript machine.reports.toList machine file typed ∧
      (opening :: answers opening.1 (lines input)).map (fun shown => shown.1.drained) =
        (loaded :: (stages loaded typed).map Stage.after).map Machine.drained ∧
      (let session := stages machine (file.toList ++ typed)
        let last := concluded machine (file.toList ++ typed)
        last.sink.written = machine.sink.written ++ String.join (session.map Stage.printed) ∧
          last.reports.toList = machine.reports.toList ++ session.flatMap Stage.reported) ∧
      ∀ stage ∈ stages loaded typed, ∀ error, stage.outcome.error? = some (.parse error) →
        PlacedIn stage.source error := by
  intro opening loaded
  have hd : opening.1.drained = loaded.drained := drained_load machine path file
  refine ⟨entered (lines input),entered_lines input,hold_eq machine path file input,?_,
    ⟨written_concluded machine _,reports_concluded machine _⟩,fun stage hm error => placedIn_of_error? hm⟩
  rw [List.map_cons,List.map_cons,List.map_map,hd]
  exact congrArg _ (drained_answers hd _)

/-- A file that prints, behind an unknown word of before the session, then a line that is no program,
a line that leaves values, and a line behind the exit line. -/
theorem dialogue_is_library_session_exit :
    let machine : Machine :=
      { Machine.blank ⟨#[]⟩ .unlimited 1 with stack := [2], reports := #[.unknownWord "x"] }
    let source := "5 . drop drop"
    let input := "3 then\n1 -2\nexit \n7 ."
    let output := "5\n\tunknown word: x\n\tstack underflow in `drop`: needs 1, found 0\n" ++
      "> ERROR: parse error: unexpected `then` at 1:3\nStack: []\n> Stack: [1, -2]\n> "
    hold machine (some ("prelude", .ok source)) true input = output ∧
      ∃ typed, Entered input typed ∧
        transcript [.unknownWord "x"] machine (some source) typed = output := by
  intro machine source input output
  have ho : hold machine (some ("prelude", .ok source)) true input = output := by decide +kernel
  obtain ⟨typed,he,ht,-⟩ := dialogue_is_library_session machine "prelude" (some source) input
  rw [Option.map_some,ho] at ht
  exact ⟨ho,typed,he,ht.symm⟩

/-- What has been reported before a session is not forgotten: it is shown with the first text, which
reports nothing itself. -/
theorem hold_shows_waiting :
    let machine := ((Machine.blank ⟨#[]⟩ .unlimited 1).evaluateSource "drop").machine
    Entered "" [] ∧ transcript [] machine (some "1") [] = "> " ∧
      hold machine (some ("prelude", .ok "1")) true "" =
        "\tstack underflow in `drop`: needs 1, found 0\n> " :=
  ⟨⟨[],⟨[],[],rfl,rfl,nofun,nofun⟩,nofun,.inl rfl⟩,by decide +kernel,by decide +kernel⟩

end NandStack.Session
