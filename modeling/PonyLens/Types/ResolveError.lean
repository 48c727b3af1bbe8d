import PonyLens.Arena.Basic

/-!
# Why a node has no type
-/

namespace PonyLens

inductive ResolveError where
  | symbolNotFound (name : String)
  | memberNotFound (owner name : String)
  /-- A type parameter is used, and nothing says of which type it is a parameter. -/
  | missingContext (name : String)
  | unboundArgument (name : String)
  /-- A node of this kind can have a type, and this one has none. -/
  | untyped (kind : Kind)
  /-- Nodes of this kind have no type. -/
  | unsupported (kind : Kind)
  | depthExceeded (limit : Nat)
  | frameLimit (limit : Nat)
  /-- The resolution came back to a node. -/
  | cycle (node : Link)
deriving DecidableEq, Repr

inductive FailureClass where
  /-- A name, a member or an argument is missing. -/
  | lookup
  | unsupported
  /-- A bound was reached. -/
  | limit
deriving DecidableEq, Repr

def FailureClass.label : FailureClass → String
  | lookup => "lookup"
  | unsupported => "unsupported"
  | limit => "limit"

namespace ResolveError

def message : ResolveError → String
  | symbolNotFound name => s!"symbol `{name}` not found"
  | memberNotFound owner name => s!"type `{owner}` has no member `{name}`"
  | missingContext name => s!"type parameter `{name}` referenced without a context type"
  | unboundArgument name => s!"type parameter `{name}` has no bound argument"
  | untyped kind => s!"`{kind.token}` node carries no type"
  | unsupported kind => s!"unsupported construct `{kind.token}`"
  | depthExceeded limit => s!"resolver nesting exceeded {limit} levels"
  | frameLimit limit => s!"resolution exceeded {limit} frames"
  | cycle node => s!"resolution revisited node {node.describe}"

def failureClass : ResolveError → FailureClass
  | symbolNotFound _ | memberNotFound _ _ | missingContext _ | unboundArgument _ | untyped _ =>
    .lookup
  | unsupported _ => .unsupported
  | depthExceeded _ | frameLimit _ | cycle _ => .limit

end ResolveError

end PonyLens
