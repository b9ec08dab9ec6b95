import NandStack.Program

/-!
Reading programs: the tokens are taken from left to right by a pushdown automaton whose stack
holds the open constructs, so the first token with which no program can go on is refused where
it stands.
-/

namespace NandStack

/-- What can be wrong with a list of tokens: it stops inside a construct, a token stands where
no program goes on with it, or the name of a definition or of a variable is no word. -/
inductive ParseError where
  /-- The tokens end inside the construct opened at `opener`, which lacks `expected` next. -/
  | unexpectedEnd (expected : Kind) (opener : Position)
  | unexpectedToken (literal : String) (place : Position)
  | invalidName (literal : String) (place : Position)
  deriving DecidableEq, Repr

def ParseError.message : ParseError → String
  | unexpectedEnd expected opener =>
    "unexpected end of input: expected " ++ expected.name ++ " to close the construct at " ++
      opener.text
  | unexpectedToken literal place => "unexpected `" ++ literal ++ "` at " ++ place.text
  | invalidName literal place =>
    "`" ++ literal ++ "` at " ++ place.text ++ " cannot be used as a name"

namespace Program

inductive Construct where
  | definition (name : String)
  | consequence
  | alternative (consequence : Program)
  | loop
  deriving DecidableEq, Repr

/-- The kind of token that ends a construct for good; a consequence that may still turn to an
`else` lacks its `then`. -/
def Construct.terminator : Construct → Kind
  | .definition _ => .semicolon
  | .consequence => .thenKeyword
  | .alternative _ => .thenKeyword
  | .loop => .loopKeyword

/-- An open construct, the place of its opener, and the nodes that come before it in the
enclosing body, last first. -/
structure Frame where
  construct : Construct
  opener : Position
  before : Program
  deriving DecidableEq, Repr

inductive Named where
  | definition
  | declaration
  deriving DecidableEq, Repr

/-- A partly read program: the nodes of the innermost open body, last first, the open
constructs, innermost first, and the opener whose name comes next, if there is one. -/
structure Reading where
  nodes : Program
  enclosing : List Frame
  awaiting : Option (Named × Position)
  deriving DecidableEq, Repr

namespace Reading

def start : Reading := ⟨.nil, [], none⟩

def enter (reading : Reading) (construct : Construct) (opener : Position) : Reading :=
  ⟨.nil, ⟨construct, opener, reading.nodes⟩ :: reading.enclosing, none⟩

def receiveName (reading : Reading) (named : Named) (opener : Position) (name : String) :
    Reading :=
  match named with
  | .definition => reading.enter (.definition name) opener
  | .declaration => { reading with nodes := .declare name reading.nodes, awaiting := none }

def leave? (reading : Reading) (kind : Kind) : Option Reading :=
  match reading.enclosing with
  | [] => none
  | frame :: enclosing =>
    match frame.construct, kind with
    | .definition name, .semicolon =>
      some ⟨.define name reading.nodes.reverse frame.before, enclosing, none⟩
    | .consequence, .thenKeyword =>
      some ⟨.ifThen reading.nodes.reverse frame.before, enclosing, none⟩
    | .consequence, .elseKeyword =>
      some ⟨.nil, { frame with construct := .alternative reading.nodes.reverse } :: enclosing,
        none⟩
    | .alternative consequence, .thenKeyword =>
      some ⟨.ifElse consequence reading.nodes.reverse frame.before, enclosing, none⟩
    | .loop, .loopKeyword => some ⟨.loop reading.nodes.reverse frame.before, enclosing, none⟩
    | _, _ => none

def step (reading : Reading) (token : Token) : Except ParseError Reading :=
  match reading.awaiting with
  | some (named, opener) =>
    match token.kind with
    | .word => .ok (reading.receiveName named opener token.literal)
    | _ => .error (.invalidName token.literal token.position)
  | none =>
    match token.kind with
    | .integer value => .ok { reading with nodes := .push value reading.nodes }
    | .word => .ok { reading with nodes := .call token.literal reading.nodes }
    | .colon => .ok { reading with awaiting := some (.definition, token.position) }
    | .variableKeyword => .ok { reading with awaiting := some (.declaration, token.position) }
    | .ifKeyword => .ok (reading.enter .consequence token.position)
    | .doKeyword => .ok (reading.enter .loop token.position)
    | kind =>
      match reading.leave? kind with
      | some outer => .ok outer
      | none => .error (.unexpectedToken token.literal token.position)

def finish (reading : Reading) : Except ParseError Program :=
  match reading.awaiting, reading.enclosing with
  | some (_, opener), _ => .error (.unexpectedEnd .word opener)
  | none, frame :: _ => .error (.unexpectedEnd frame.construct.terminator frame.opener)
  | none, [] => .ok reading.nodes.reverse

def run (reading : Reading) : List Token → Except ParseError Program
  | [] => reading.finish
  | token :: rest =>
    match reading.step token with
    | .ok next => next.run rest
    | .error error => .error error

end Reading

def ofTokens (tokens : List Token) : Except ParseError Program :=
  Reading.start.run tokens

def ofSource (source : String) : Except ParseError Program :=
  ofTokens (Token.scan source)

end Program

end NandStack
