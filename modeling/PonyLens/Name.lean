/-!
# Names

Every text that a tree mentions (identifiers, package names, literals) is stored once, and nodes
and scopes refer to it by an `Atom`. A table only grows, so an atom keeps its text for good.
-/

namespace PonyLens

/-- Handle of a stored name: its position in the table that handed it out. -/
structure Atom where
  index : Nat
deriving DecidableEq, Repr

def Atom.empty : Atom := ⟨0⟩

def Atom.isEmpty (a : Atom) : Bool := a == .empty

/-- The names stored so far, each at the position of its atom. -/
structure NameTable where
  names : Array String
deriving DecidableEq, Repr

namespace NameTable

def empty : NameTable := ⟨#[""]⟩

instance : Inhabited NameTable := ⟨empty⟩

/-- The number of stored names, the empty one included. -/
def size (t : NameTable) : Nat := t.names.size

def isEmpty (t : NameTable) : Bool := t.size == 1

def get? (t : NameTable) (name : String) : Option Atom :=
  (t.names.idxOf? name).map Atom.mk

/-- The text of an atom; empty for an atom that this table did not hand out. -/
def text (t : NameTable) (a : Atom) : String := t.names.getD a.index ""

/-- The atom of a name, which is stored first if it is new. -/
def intern (t : NameTable) (name : String) : Atom × NameTable :=
  match t.get? name with
  | some a => (a, t)
  | none => (⟨t.size⟩, ⟨t.names.push name⟩)

def internAll (t : NameTable) (names : List String) : NameTable :=
  names.foldl (fun t name => (t.intern name).2) t

/-- Type and method names that most programs mention. -/
def common : List String :=
  ["builtin", "create", "apply", "String", "Float", "Int", "Array", "Bool", "None", "Env", "Main",
    "this"]

/-- Stores the common names, so that they get the lowest atoms of a new table. -/
def internCommon (t : NameTable) : NameTable := t.internAll common

end NameTable

end PonyLens
