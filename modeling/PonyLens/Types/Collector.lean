import PonyLens.Types.Resolution

/-!
# Collectors

A collector is asked about the members of types, one question after the other. It keeps one guard
for all its walks, and resets it before each of them. How deep its questions are nested is said when
it is made.
-/

namespace PonyLens

/-- The nesting of a collector, and its guard as the last walk has left it. -/
structure Collector where
  nesting : Nat := 0
  guard : Guard NodeId := ({} : Inheritance).guard
deriving DecidableEq, Repr

abbrev CollectM := StateT Collector CacheM

namespace Collector

def sites (env : Env) (t : NominalType) : CollectM (List MemberSite) := do
  let i ← env.visitType Limits.providesDepth t { guard := (← get).guard.reset }
  modify fun k => { k with guard := i.guard }
  return i.found

/-- The member found at a site. Its types are resolved one level deeper. -/
def memberAt (env : Env) (site : MemberSite) : CollectM Member := do
  env.memberAt (env.resolveIn (env.room - ((← get).nesting + 1))) site

def limited {α : Type} (env : Env) (call : CollectM α) : CollectM (Except ResolveError α) := do
  if env.options.maxNesting < (← get).nesting then
    return .error (.depthExceeded env.options.maxNesting)
  else return .ok (← call)

def members (env : Env) (t : NominalType) : CollectM (Except ResolveError (List Member)) :=
  limited env do (← sites env t).mapM (memberAt env)

def member (env : Env) (t : NominalType) (name : String) :
    CollectM (Except ResolveError (Option Member)) :=
  limited env do
    match (← sites env t).find? (·.name == name) with
    | some site => return some (← memberAt env site)
    | none => return none

end Collector

end PonyLens
