import NandStack.Vocabulary

/-!
Sessions: texts and lines evaluated one after the other on one machine, with what each of them
shows. A report is shown with the text that is evaluated next and never again.
-/

namespace NandStack

/-- The `White_Space` property of Unicode characters, which is wider than the blanks that
separate tokens. -/
def WhiteSpace.holds (character : Char) : Bool :=
  ranges.any fun (first, last) => first ≤ character.toNat && character.toNat ≤ last
where
  -- First and last code point of each range; together they are 25 characters.
  ranges : List (Nat × Nat) :=
    [(0x0009, 0x000D), (0x0020, 0x0020), (0x0085, 0x0085), (0x00A0, 0x00A0), (0x1680, 0x1680),
      (0x2000, 0x200A), (0x2028, 0x2029), (0x202F, 0x202F), (0x205F, 0x205F), (0x3000, 0x3000)]

/-- Evaluates a text and drains the reports. The result says what was reported, a line each,
and then why the evaluation was aborted, if it was. -/
def Machine.runSource (machine : Machine) (source : String) : Machine × String :=
  let outcome := machine.evaluateSource source
  let reports := outcome.machine.reports.toList.map fun fault => "\t" ++ fault.message ++ "\n"
  let failure := match outcome.error? with
    | some error => "ERROR: " ++ error.message ++ "\n"
    | none => ""
  (outcome.machine.drainReports, String.join reports ++ failure)

namespace Session

/-- Evaluates a text and gives all that it shows: first what it printed. What was printed
before the text has been shown already. -/
def respond (machine : Machine) (source : String) : Machine × String :=
  let (after, text) := machine.drainOutput.runSource source
  (after, after.sink.written ++ text)

def prompt : String := "> "

def stackLine (machine : Machine) : String :=
  "Stack: [" ++ ", ".intercalate (machine.stack.reverse.map Decimal.write) ++ "]\n"

/-- A line ends the session when it is `exit` up to white space behind it. -/
def isExit (line : String) : Bool :=
  (line.toList.reverse.dropWhile WhiteSpace.holds).reverse = "exit".toList

/-- The answer to a line, which closes with the stack; the exit line has none. -/
def answer? (machine : Machine) (line : String) : Option (Machine × String) :=
  if isExit line then none
  else
    let (after, text) := respond machine line
    some (after, text ++ stackLine after)

def answers (machine : Machine) : List String → List (Machine × String)
  | [] => []
  | line :: rest =>
    match answer? machine line with
    | none => []
    | some answer => answer :: answers answer.1 rest

/-- The dialogue over some lines: each answer has a prompt before it, and a last prompt meets
the exit line or the end of the lines. -/
def dialogue (machine : Machine) (lines : List String) : String :=
  String.join ((answers machine lines).map fun answer => prompt ++ answer.2) ++ prompt

/-- Cuts a text behind each line feed; `held` is the line being read, last character first. -/
def linesFrom (held : List Char) : List Char → List String
  | [] => if held.isEmpty then [] else [String.ofList held.reverse]
  | character :: rest =>
    if character = '\n' then String.ofList (character :: held).reverse :: linesFrom [] rest
    else linesFrom (character :: held) rest

/-- The lines of a text, each with its line feed; the last may lack it but is never empty. -/
def lines (text : String) : List String :=
  linesFrom [] text.toList

end Session

end NandStack
