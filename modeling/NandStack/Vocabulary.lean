import NandStack.Machine.Evaluate

/-!
The standard vocabulary, written in the language itself over the primitives, and the creation
of machines that know it.
-/

namespace NandStack

/-- The standard words. They pass operands through the return stack and the variable `temp`,
and `?dup` drops a zero. -/
def Vocabulary.source : String := "
  : true   -1 ;
  : false   0 ;

  variable temp
  : swap   >r temp ! r> temp @ ;
  : over   >r temp ! temp @ r> temp @ ;
  : rot    >r swap r> swap ;
  : dup    temp ! temp @ temp @ ;
  : 2dup   over over ;
  : ?dup   temp ! temp @ if temp @ temp @ then ;
  : nip    >r temp ! r> ;

  : invert   -1 nand ;
  : negate   invert 1 + ;
  : -        negate + ;
  : 1+       1 + ;
  : 1-       -1 + ;
  : +!       dup >r @ + r> ! ;

  : 0=    if 0 else -1 then ;
  : =     - 0= ;
  : <>    = 0= ;

  : or    invert swap invert nand ;
  : xor   2dup nand 1+ dup + + + ;
  : and   nand invert ;
  : 2*    dup + ;

  : <     2dup xor 0< if drop 0< else - 0< then ;
  : u<    2dup xor 0< if nip 0< else - 0< then ;
  : >     swap < ;
  : u>    swap u< ;
"

structure MachineSizes where
  cells : Nat
  reserved : Nat
  maxDepth : Nat
  deriving DecidableEq, Repr

def MachineSizes.default : MachineSizes :=
  ⟨1000, 1000, 1024⟩

def Machine.createWith (vocabulary : String) (grants : Nat → Bool) (sizes : MachineSizes)
    (sink : Sink) : Except EvalError Machine :=
  match Memory.allocate? grants (sizes.cells + sizes.reserved) with
  | none => .error (.memoryTooLarge sizes.cells sizes.reserved)
  | some memory =>
    match (Machine.blank memory sink sizes.maxDepth).evaluateSource vocabulary with
    | .finished machine => .ok machine
    | .aborted error _ => .error error

def Machine.create (grants : Nat → Bool) (sizes : MachineSizes) (sink : Sink) :
    Except EvalError Machine :=
  createWith Vocabulary.source grants sizes sink

end NandStack
