import NandStack.Token

/-!
Programs: a program is its first node followed by the program of the remaining nodes, so the
bodies of constructs are programs themselves and one induction reaches every node. Names are
written into the text of a program as they are, so it reads back when every name is one word.
-/

namespace NandStack

/-- A conditional with an empty alternative and one without any are different programs. -/
inductive Program where
  | nil
  | push (value : Int64) (rest : Program)
  | call (name : String) (rest : Program)
  | define (name : String) (body rest : Program)
  | declare (name : String) (rest : Program)
  | ifThen (consequence rest : Program)
  | ifElse (consequence alternative rest : Program)
  | loop (body rest : Program)
  deriving DecidableEq, Repr, Inhabited

namespace Program

def append : Program → Program → Program
  | nil, after => after
  | push value rest, after => push value (rest.append after)
  | call name rest, after => call name (rest.append after)
  | define name body rest, after => define name body (rest.append after)
  | declare name rest, after => declare name (rest.append after)
  | ifThen consequence rest, after => ifThen consequence (rest.append after)
  | ifElse consequence alternative rest, after =>
    ifElse consequence alternative (rest.append after)
  | loop body rest, after => loop body (rest.append after)

/-- Puts the nodes of the first program, in reverse order, before the second. Bodies keep
their order. -/
def reverseOnto : Program → Program → Program
  | nil, after => after
  | push value rest, after => rest.reverseOnto (push value after)
  | call name rest, after => rest.reverseOnto (call name after)
  | define name body rest, after => rest.reverseOnto (define name body after)
  | declare name rest, after => rest.reverseOnto (declare name after)
  | ifThen consequence rest, after => rest.reverseOnto (ifThen consequence after)
  | ifElse consequence alternative rest, after =>
    rest.reverseOnto (ifElse consequence alternative after)
  | loop body rest, after => rest.reverseOnto (loop body after)

def reverse (program : Program) : Program :=
  program.reverseOnto nil

def spelling : Program → List String
  | nil => []
  | push value rest => Decimal.write value :: rest.spelling
  | call name rest => name :: rest.spelling
  | define name body rest => ":" :: name :: (body.spelling ++ ";" :: rest.spelling)
  | declare name rest => "variable" :: name :: rest.spelling
  | ifThen consequence rest => "if" :: (consequence.spelling ++ "then" :: rest.spelling)
  | ifElse consequence alternative rest =>
    "if" :: (consequence.spelling ++
      "else" :: (alternative.spelling ++ "then" :: rest.spelling))
  | loop body rest => "do" :: (body.spelling ++ "loop" :: rest.spelling)

def render (program : Program) : String :=
  " ".intercalate program.spelling

end Program

end NandStack
