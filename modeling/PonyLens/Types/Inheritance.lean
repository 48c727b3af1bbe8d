import PonyLens.Guard
import PonyLens.Types.Definitions
import PonyLens.Types.NominalType

/-!
# Inherited members

The members of a type are its own, in order of declaration, and then those of the types it provides,
depth first. The first member found under a name counts. A type may be met again on another path; a
guard keeps it from being entered from within itself, and bounds the walk.
-/

namespace PonyLens

/-- A member where it was found, and the type it was found on, with the arguments that the
inheriting types gave it. -/
structure MemberSite where
  name : String
  node : NodeId
  owner : NominalType
deriving DecidableEq, Repr

/-- The members found so far, in order, and the guard of the walk. -/
structure Inheritance where
  guard : Guard NodeId := { maxDepth := Limits.providesDepth, maxVisits := Limits.providesVisits }
  found : List MemberSite := []
deriving DecidableEq, Repr

namespace Inheritance

/-- Adds a member unless it has no name or its name is taken. -/
def insert (i : Inheritance) (a : Arena) (owner : NominalType) (member : NodeId) : Inheritance :=
  match a.name? (some member) with
  | some name =>
    if name.isEmpty || i.found.any (·.name == name) then i
    else { i with found := i.found ++ [⟨name, member, owner⟩] }
  | none => i

def insertOwn (i : Inheritance) (a : Arena) (owner : NominalType) : Inheritance :=
  (a.children (a.child (some owner.definition) definitionLayout.members)).foldl
    (fun i member => i.insert a owner member) i

end Inheritance

/-- The nominals in the first `levels` levels of the tree below a node, in order. Type arguments are
not searched, nor is anything inside a nominal. -/
def Arena.nominalsWithin (a : Arena) : Nat → NodeId → List NodeId
  | 0, _ => []
  | levels + 1, n =>
    match a.kind? (some n) with
    | some .nominal => [n]
    | some .typeArgs | none => []
    | some _ => (a.children (some n)).flatMap (a.nominalsWithin levels)

namespace Env

def providedNominals (env : Env) (owner : NominalType) : List NodeId :=
  owner.head.provides.flatMap (env.arena.nominalsWithin env.arena.size)

/-- The type that an entry of the provides-list of `owner` names, with the arguments it writes. -/
def provider? (env : Env) (owner : NominalType) (nominal : NodeId) :
    CacheM (Option NominalType) := do
  match ← (env.nominalDefinition (some nominal)).run with
  | .ok definition =>
    return (NominalType.ofDefinition? env.arena definition).map fun provider =>
      let args := env.arena.child (some nominal) 2
      if env.arena.is args .typeArgs then provider.bindArguments env.arena args (some owner)
      else provider
  | .error _ => return none

/-- Visits a type: its own members, then the types it provides. At most `levels` types may be open
at a time, itself included; the guard's depth limit grants no more. -/
def visitType (env : Env) : Nat → NominalType → Inheritance → CacheM Inheritance
  | 0, owner, i => return { i with guard := (i.guard.enter owner.definition).2 }
  | levels + 1, owner, i => do
    match i.guard.enter owner.definition with
    | (.entered, guard) =>
      let i ← (env.providedNominals owner).foldlM (fun i nominal => do
        match ← env.provider? owner nominal with
        | some provider => env.visitType levels provider i
        | none => return i) (({ i with guard } : Inheritance).insertOwn env.arena owner)
      return { i with guard := (i.guard.leave? owner.definition).getD i.guard }
    | (_, guard) => return { i with guard }

def inheritance (env : Env) (t : NominalType) : CacheM Inheritance :=
  env.visitType Limits.providesDepth t {}

def memberSites (env : Env) (t : NominalType) : CacheM (List MemberSite) :=
  return (← env.inheritance t).found

end Env

end PonyLens
