import PonyLens.Arena.Walk
import PonyLens.Types.Capability

/-!
# Nominal types

The type of an expression is a type definition, perhaps with type arguments. Arguments are kept as
the nodes that write them. They may name type parameters, and these are parameters of the type in
whose body the arguments were written, the outer type, which may itself be instantiated in the body
of another type. So a nominal type is a chain of instances, each written in the body of the next.
-/

namespace PonyLens

structure DefinitionLayout where
  name : Nat
  typeParams : Nat
  capability : Nat
  provides : Nat
  members : Nat
  docstring : Nat

/-- The layout of every type definition. Its sixth child is not used. -/
def definitionLayout : DefinitionLayout := ⟨0, 1, 2, 3, 4, 6⟩

structure Instance where
  definition : NodeId
  kind : Kind
  name : String
  docstring : String
  capability : Capability
  typeParams : List NodeId
  /-- The entries of the provides-list. -/
  provides : List NodeId
  /-- One argument for each type parameter; no node where none was written. -/
  args : Option (List Link) := none
deriving DecidableEq, Repr

/-- An instance, and the instances in whose bodies its arguments were written. -/
structure NominalType where
  head : Instance
  outers : List Instance := []
deriving DecidableEq, Repr

namespace NominalType

def definition (t : NominalType) : NodeId := t.head.definition

def name (t : NominalType) : String := t.head.name

def args (t : NominalType) : Option (List Link) := t.head.args

/-- The type in whose body the arguments were written. -/
def outer? (t : NominalType) : Option NominalType :=
  match t.outers with
  | [] => none
  | o :: os => some ⟨o, os⟩

/-- The docstring that a node holds; empty if it holds none. -/
def docstringAt (a : Arena) (l : Link) : String := if a.is l .stringLit then a.text l else ""

/-- The type without arguments that a node defines. The definition has to start with a name. -/
def ofDefinition? (a : Arena) (l : Link) : Option NominalType :=
  match l, a.kind? l with
  | some n, some kind =>
    let part (i : Nat) := a.child l i
    let name := a.text (part definitionLayout.name)
    if kind.isTypeDefinition && a.is (part definitionLayout.name) .ident && !name.isEmpty then
      some {
        head := {
          definition := n, kind, name
          docstring := docstringAt a (part definitionLayout.docstring)
          capability := .ofKind (a.kind? (part definitionLayout.capability))
          typeParams := a.children (part definitionLayout.typeParams)
          provides := a.children (part definitionLayout.provides) } }
    else none
  | _, _ => none

/-- Takes the children of a node as arguments, written in the body of `outer`. There are as many
arguments as type parameters: surplus ones are dropped, missing ones stay open. -/
def bindArguments (t : NominalType) (a : Arena) (args : Link) (outer : Option NominalType) :
    NominalType where
  head := { t.head with
    args := some ((List.range t.head.typeParams.length).map fun i => a.child args i) }
  outers := match outer with
    | some o => o.head :: o.outers
    | none => []

def paramIndex? (t : NominalType) (a : Arena) (name : String) : Option Nat :=
  t.head.typeParams.findIdx? fun p => a.name? (some p) == some name

/-- Whether two types are the same: one definition and the same argument nodes. -/
def same (s t : NominalType) : Bool := s.definition == t.definition && s.args == t.args

def enclosing? (a : Arena) (l : Link) : Option NominalType :=
  ofDefinition? a (a.enclosing l Kind.isTypeDefinition)

end NominalType

end PonyLens
