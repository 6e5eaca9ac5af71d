/-!
# Named constants

A table gives a name one value for good: the first one. Names are told apart by
case.
-/

namespace AsmExpand

structure SymbolTable where
  entries : List (String × Int64) := []

namespace SymbolTable

/-- The value of a name. -/
def find? (t : SymbolTable) (name : String) : Option Int64 := t.entries.lookup name

/-- The table with one more name; `none` if the name has a value already. -/
def add? (t : SymbolTable) (name : String) (value : Int64) : Option SymbolTable :=
  match t.find? name with
  | some _ => none
  | none => some ⟨(name, value) :: t.entries⟩

/-- The table with one more name, unchanged if the name has a value already. -/
def add (t : SymbolTable) (name : String) (value : Int64) : SymbolTable :=
  (t.add? name value).getD t

def size (t : SymbolTable) : Nat := t.entries.length

def isEmpty (t : SymbolTable) : Bool := t.entries.isEmpty

end SymbolTable

end AsmExpand
