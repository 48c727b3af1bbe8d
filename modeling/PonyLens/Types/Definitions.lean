import PonyLens.Scope.Table
import PonyLens.Types.Cache
import PonyLens.Types.ResolveError
import PonyLens.Types.Options

/-!
# Finding definitions

How a name in a type leads to the definition of the type: through the scopes around it, or through
the scope of the package in front of it.
-/

namespace PonyLens

structure Env where
  arena : Arena
  scopes : ScopeTable
  options : Options := {}

abbrev CacheM := StateM Cache

/-- Computations that may fail as well. What was cached before a failure stays. -/
abbrev ResolveM := ExceptT ResolveError CacheM

namespace Env

/-- The symbol's definition, if it defines a type. -/
def typeDefinition (env : Env) (name : String) (symbol : Option Symbol) :
    Except ResolveError NodeId :=
  match symbol with
  | some s =>
    if env.arena.isA (some s.definition) Kind.isTypeDefinition then .ok s.definition
    else .error (.symbolNotFound name)
  | none => .error (.symbolNotFound name)

def builtinDefinition (env : Env) (site : Link) (name : String) : Except ResolveError NodeId :=
  env.typeDefinition name (env.scopes.lookup env.arena site name)

/-- The definition that a node names: its first child may be a package name, its second is the name
of the type. -/
def namedDefinition (env : Env) (l : Link) : Except ResolveError NodeId :=
  let a := env.arena
  let package := a.child l 0
  let name := a.text (a.child l 1)
  if a.is package .ident then
    match env.scopes.lookup a l (a.text package) with
    | some p =>
      if a.is (some p.definition) .package then
        env.typeDefinition name (env.scopes.lookupIn a (some p.definition) name)
      else .error (.symbolNotFound (a.text package))
    | none => .error (.symbolNotFound (a.text package))
  else env.typeDefinition name (env.scopes.lookup a l name)

def bindCached (env : Env) (l target : Link) : CacheM Link :=
  fun c => c.bind env.arena l target

/-- The binding of a node, which is looked up with `find` the first time. -/
def cachedDefinition (env : Env) (l : Link) (find : Except ResolveError NodeId) :
    ResolveM Link := do
  match (← get).find? l with
  | some bound => return bound
  | none =>
    match find with
    | .ok d => env.bindCached l (some d)
    | .error e => throw e

def nominalDefinition (env : Env) (l : Link) : ResolveM Link :=
  env.cachedDefinition l (env.namedDefinition l)

end Env

end PonyLens
