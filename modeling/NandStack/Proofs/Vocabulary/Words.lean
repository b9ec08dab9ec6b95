import NandStack.Vocabulary

/-!
Words of the vocabulary: the program that its text spells, written out. It is read here once; what
is said of the words elsewhere is said of these programs.
-/

namespace NandStack

private theorem Token.scan_ofList (characters : List Char) :
    scan (String.ofList characters) = scanFrom .start .start [] characters := by
  rw [scan,String.toList_ofList]

namespace Vocabulary

def calls (names : List String) : Program :=
  names.foldr .call .nil

def constants : List (String × Program) := [
  ("true", .push (-1) .nil),
  ("false", .push 0 .nil)]

/-- The words that need `temp` or other words, each with its body. -/
def operations : List (String × Program) := [
  ("swap", calls [">r", "temp", "!", "r>", "temp", "@"]),
  ("over", calls [">r", "temp", "!", "temp", "@", "r>", "temp", "@"]),
  ("rot", calls [">r", "swap", "r>", "swap"]),
  ("dup", calls ["temp", "!", "temp", "@", "temp", "@"]),
  ("2dup", calls ["over", "over"]),
  ("?dup", .call "temp" (.call "!" (.call "temp" (.call "@"
    (.ifThen (calls ["temp", "@", "temp", "@"]) .nil))))),
  ("nip", calls [">r", "temp", "!", "r>"]),
  ("invert", .push (-1) (calls ["nand"])),
  ("negate", .call "invert" (.push 1 (calls ["+"]))),
  ("-", calls ["negate", "+"]),
  ("1+", .push 1 (calls ["+"])),
  ("1-", .push (-1) (calls ["+"])),
  ("+!", calls ["dup", ">r", "@", "+", "r>", "!"]),
  ("0=", .ifElse (.push 0 .nil) (.push (-1) .nil) .nil),
  ("=", calls ["-", "0="]),
  ("<>", calls ["=", "0="]),
  ("or", calls ["invert", "swap", "invert", "nand"]),
  ("xor", calls ["2dup", "nand", "1+", "dup", "+", "+", "+"]),
  ("and", calls ["nand", "invert"]),
  ("2*", calls ["dup", "+"]),
  ("<", .call "2dup" (.call "xor" (.call "0<"
    (.ifElse (calls ["drop", "0<"]) (calls ["-", "0<"]) .nil)))),
  ("u<", .call "2dup" (.call "xor" (.call "0<"
    (.ifElse (calls ["nip", "0<"]) (calls ["-", "0<"]) .nil)))),
  (">", calls ["swap", "<"]),
  ("u>", calls ["swap", "u<"])]

def bodies : NameTable Program :=
  ⟨constants ++ operations⟩

def definitions (entries : List (String × Program)) (rest : Program) : Program :=
  entries.foldr (fun entry => .define entry.1 entry.2) rest

def program : Program :=
  definitions constants (.declare "temp" (definitions operations .nil))

set_option maxRecDepth 8000 in
theorem ofSource_source : Program.ofSource source = .ok program := by
  have hs : Token.scan source = _ := Token.scan_ofList _
  have hp : (Program.ofSource source).toOption = some program := by
    rw [Program.ofSource,hs]
    decide +kernel
  cases hr : Program.ofSource source with
  | ok read =>
    rw [hr] at hp
    exact congrArg Except.ok (Option.some.inj hp)
  | error error =>
    rw [hr] at hp
    cases hp

open Machine (run)

private theorem run_definitions (enter : Program → Machine → Outcome Fault)
    (entries : List (String × Program)) (rest : Program) (machine : Machine) :
    run enter (definitions entries rest) machine =
      run enter rest { machine with
        dictionary := entries.foldl (fun table entry => table.insert entry.1 entry.2)
          machine.dictionary } := by
  induction entries generalizing machine with
  | nil => rfl
  | cons entry entries ih => exact ih (machine.define entry.1 entry.2)

/-- A blank machine comes to know the words, and `temp` as the first address. -/
theorem run_program (enter : Program → Machine → Outcome Fault) (memory : Memory) (sink : Sink)
    (maxDepth : Nat) :
    run enter program (.blank memory sink maxDepth) =
      .finished { Machine.blank memory sink maxDepth with
        dictionary := bodies, «variables» := ⟨[("temp", 0)]⟩, nextAddress := 1 } := by
  have hd : operations.foldl (fun table entry => table.insert entry.1 entry.2)
      (constants.foldl (fun table entry => table.insert entry.1 entry.2) .empty) = bodies := by
    decide +kernel
  rw [program,run_definitions,run,run_definitions,run,← hd]
  rfl

end Vocabulary

end NandStack
