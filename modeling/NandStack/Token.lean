/-!
Tokens: a run of characters of the source with the place where it begins. What a token is good
for follows from its characters alone. The tokens of a text are its maximal runs of characters
other than blanks, in order. Numerals may have any number of leading zeros, and are written
without any.
-/

namespace NandStack

namespace Decimal

/-- The number that a nonempty run of ASCII digits stands for. Other digits of Unicode are not
digits here. -/
def natural? (digits : List Char) : Option Nat :=
  if digits ≠ [] ∧ digits.all Char.isDigit then some (Nat.ofDigitChars 10 digits 0) else none

/-- The number that a digit run with at most one minus sign before it stands for. A plus sign
is not accepted. -/
def integer? : List Char → Option Int
  | '-' :: digits => (natural? digits).map fun n => -(n : Int)
  | digits => (natural? digits).map fun n => (n : Int)

/-- The signed 64-bit value that a numeral stands for. A numeral beyond either limit has none:
it does not wrap. -/
def read? (text : String) : Option Int64 :=
  (integer? text.toList).bind fun value =>
    if Int64.minValue.toInt ≤ value ∧ value ≤ Int64.maxValue.toInt then some (Int64.ofInt value)
    else none

def write (value : Int64) : String :=
  value.toInt.repr

end Decimal

/-- A place in a text. Lines and columns count from one, and columns count characters. -/
structure Position where
  line : Nat
  column : Nat
  deriving DecidableEq, Repr

namespace Position

def start : Position := ⟨1, 1⟩

/-- The place behind a character. Only a line feed ends a line. -/
def after (position : Position) (character : Char) : Position :=
  if character = '\n' then ⟨position.line + 1, 1⟩ else ⟨position.line, position.column + 1⟩

def text (position : Position) : String :=
  position.line.repr ++ ":" ++ position.column.repr

end Position

/-- The lexical kinds. A `quote` is set apart from the words, but no construct uses it. -/
inductive Kind where
  | word
  | quote
  | integer (value : Int64)
  | colon
  | semicolon
  | ifKeyword
  | elseKeyword
  | thenKeyword
  | doKeyword
  | loopKeyword
  | variableKeyword
  deriving DecidableEq, Repr

namespace Kind

/-- Every literal has a kind: what is neither a numeral nor reserved is a word. Numerals that
are no signed 64-bit value are words as well. -/
def ofLiteral (literal : String) : Kind :=
  match Decimal.read? literal with
  | some value => .integer value
  | none =>
    match literal with
    | "\"" => .quote
    | ":" => .colon
    | ";" => .semicolon
    | "if" => .ifKeyword
    | "else" => .elseKeyword
    | "then" => .thenKeyword
    | "do" => .doKeyword
    | "loop" => .loopKeyword
    | "variable" => .variableKeyword
    | _ => .word

def name : Kind → String
  | .word => "Word"
  | .quote => "Quote"
  | .integer _ => "Integer"
  | .colon => "Colon"
  | .semicolon => "Semicolon"
  | .ifKeyword => "If"
  | .elseKeyword => "Else"
  | .thenKeyword => "Then"
  | .doKeyword => "Do"
  | .loopKeyword => "Loop"
  | .variableKeyword => "Variable"

def value? : Kind → Option Int64
  | .integer value => some value
  | _ => none

end Kind

structure Token where
  literal : String
  position : Position
  deriving DecidableEq, Repr

namespace Token

def kind (token : Token) : Kind :=
  .ofLiteral token.literal

/-- The characters that separate tokens. Every other character, other blanks of Unicode
included, belongs to a token. -/
def isBlank (character : Char) : Bool :=
  character = ' ' || character = '\t' || character = '\r' || character = '\n'

def ofRun (first : Position) (run : List Char) : List Token :=
  if run.isEmpty then [] else [⟨String.ofList run.reverse, first⟩]

/-- Scans on from the place `here`. The run that is being read began at `first` and its
characters are held last first; while it is empty, `first` means nothing. -/
def scanFrom (here first : Position) (run : List Char) : List Char → List Token
  | [] => ofRun first run
  | character :: rest =>
    if isBlank character then
      ofRun first run ++ scanFrom (here.after character) here [] rest
    else
      scanFrom (here.after character) (if run.isEmpty then here else first) (character :: run) rest

def scan (source : String) : List Token :=
  scanFrom .start .start [] source.toList

end Token

end NandStack
