/-!
Tables from names to values. A name keeps the place of its first insertion, and inserting it
again replaces its value there.
-/

namespace NandStack

structure NameTable (α : Type) where
  entries : List (String × α)
  deriving DecidableEq, Repr

namespace NameTable
variable {α : Type}

def empty : NameTable α := ⟨[]⟩

def find? (table : NameTable α) (name : String) : Option α :=
  table.entries.lookup name

def contains (table : NameTable α) (name : String) : Bool :=
  (table.find? name).isSome

def insertEntry (name : String) (value : α) : List (String × α) → List (String × α)
  | [] => [(name, value)]
  | (other, held) :: rest =>
    if name == other then (other, value) :: rest
    else (other, held) :: insertEntry name value rest

def insert (table : NameTable α) (name : String) (value : α) : NameTable α :=
  ⟨insertEntry name value table.entries⟩

@[simp] theorem find?_empty (name : String) : (empty : NameTable α).find? name = none := rfl

private theorem lookup_insertEntry (name query : String) (value : α)
    (entries : List (String × α)) :
    (insertEntry name value entries).lookup query =
      if query = name then some value else entries.lookup query := by
  induction entries with
  | nil => grind [insertEntry]
  | cons entry rest ih =>
    obtain ⟨other, held⟩ := entry
    by_cases h : name = other <;> grind [insertEntry]

/-- Insertion gives the name its value and leaves every other name alone. -/
@[simp] theorem find?_insert (table : NameTable α) (name query : String) (value : α) :
    (table.insert name value).find? query =
      if query = name then some value else table.find? query :=
  lookup_insertEntry name query value table.entries

end NameTable

end NandStack
