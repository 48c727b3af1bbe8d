import PonyLens.Arena.Walk

/-!
# Scope tables

A scope lists names in order of declaration, each with the node that declares it; of two
declarations of a name the first one counts. A name is looked up in the scopes around a node, from
the inside to the outside.
-/

namespace PonyLens

inductive SymbolStatus where
  | defined
  /-- Declared without a value. -/
  | undefined
  /-- Given away somewhere in its scope. -/
  | consumed
deriving DecidableEq, Repr

def SymbolStatus.label : SymbolStatus → String
  | defined => "defined"
  | undefined => "undefined"
  | consumed => "consumed"

structure Symbol where
  definition : NodeId
  status : SymbolStatus := .defined
deriving DecidableEq, Repr

/-- The declarations of one scope in order. No two have the same name. -/
structure Scope where
  entries : List (Atom × Symbol)
deriving DecidableEq, Repr

namespace Scope

def empty : Scope := ⟨[]⟩

def find? (s : Scope) (name : Atom) : Option Symbol := s.entries.lookup name

/-- Adds a declaration, unless its name is taken. -/
def declare (s : Scope) (name : Atom) (symbol : Symbol) : Scope :=
  if (s.find? name).isSome then s else ⟨s.entries ++ [(name, symbol)]⟩

/-- Adds the declarations of another scope in order, as far as their names are free. -/
def extend (s outer : Scope) : Scope :=
  outer.entries.foldl (fun s (name, symbol) => s.declare name symbol) s

def consume (s : Scope) (name : Atom) : Scope where
  entries := s.entries.map fun (other, symbol) =>
    (other, if other = name then { symbol with status := .consumed } else symbol)

end Scope

/-- The scopes of a tree, by the node that owns them. -/
structure ScopeTable where
  scopes : List (NodeId × Scope)
  /-- The root of the tree, if it is a program. -/
  program : Link
deriving DecidableEq, Repr

namespace ScopeTable

def scope? (t : ScopeTable) (owner : NodeId) : Option Scope := t.scopes.lookup owner

def owns (t : ScopeTable) (n : NodeId) : Bool := (t.scope? n).isSome

def modify (t : ScopeTable) (owner : NodeId) (f : Scope → Scope) : ScopeTable :=
  { t with scopes := t.scopes.map fun (n, s) => (n, if n = owner then f s else s) }

def outward (a : Arena) (l : Link) : List NodeId := l.toList ++ a.ancestors l

/-- The scopes around a node, innermost first. The node's own scope is the first. -/
def chain (t : ScopeTable) (a : Arena) (l : Link) : List Scope :=
  (outward a l).filterMap t.scope?

def lookup (t : ScopeTable) (a : Arena) (l : Link) (name : String) : Option Symbol := do
  let atom ← a.names.get? name
  (t.chain a l).findSome? (·.find? atom)

def lookupIn (t : ScopeTable) (a : Arena) (owner : Link) (name : String) : Option Symbol := do
  let atom ← a.names.get? name
  let scope ← t.scope? (← owner)
  scope.find? atom

/-- All that can be used at a node, as one scope: an inner declaration hides an outer one. -/
def scopeAt (t : ScopeTable) (a : Arena) (l : Link) : Scope := (t.chain a l).foldl .extend .empty

/-- The names that can be used at a node, innermost scope first, in order of declaration. -/
def visible (t : ScopeTable) (a : Arena) (l : Link) : List (String × Symbol) :=
  (t.scopeAt a l).entries.map fun (name, symbol) => (a.names.text name, symbol)

end ScopeTable

end PonyLens
