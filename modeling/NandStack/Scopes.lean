/-!
Scopes: the bindings made by running constructs, innermost first. A name denotes its innermost
binding, and leaving a construct drops the innermost frame whatever its name.
-/

namespace NandStack

structure Scopes where
  frames : List (String × Int64)
  deriving DecidableEq, Repr

namespace Scopes

def empty : Scopes := ⟨[]⟩

def get? (scopes : Scopes) (name : String) : Option Int64 :=
  scopes.frames.lookup name

def enclose (scopes : Scopes) (name : String) (value : Int64) : Scopes :=
  ⟨(name, value) :: scopes.frames⟩

def unenclose (scopes : Scopes) : Scopes :=
  ⟨scopes.frames.tail⟩

/-- Gives the innermost frame of a name a new value and leaves all other frames alone. -/
def setFrame (name : String) (value : Int64) : List (String × Int64) → List (String × Int64)
  | [] => []
  | (bound, held) :: rest =>
    if name == bound then (bound, value) :: rest else (bound, held) :: setFrame name value rest

def set (scopes : Scopes) (name : String) (value : Int64) : Scopes :=
  ⟨setFrame name value scopes.frames⟩

@[simp] theorem set_enclose (scopes : Scopes) (name : String) (held value : Int64) :
    (scopes.enclose name held).set name value = scopes.enclose name value := by
  simp [enclose, set, setFrame]

end Scopes

end NandStack
