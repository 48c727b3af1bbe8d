import PonyLens.Types.Resolution

/-!
# Resolvers

A resolver is asked for the type of one node and keeps the answer: the context of the first question
decides, and that of a later one is not looked at.
-/

namespace PonyLens

/-- Whether two resolutions come to the same type, or to the same failure. -/
def Trace.agrees (s t : Trace) : Bool :=
  match s.outcome, t.outcome with
  | .ok a, .ok b => a.same b
  | .error e, .error f => e == f
  | _, _ => false

/-- A node whose type is asked for, types that stand for parameters by name, and the answer once
there is one. -/
structure Resolver where
  node : Link
  bindings : List (String × NominalType) := []
  answer : Option Trace := none

def Resolver.ask (r : Resolver) (env : Env) (context : Option NominalType) :
    CacheM (Trace × Resolver) := do
  match r.answer with
  | some trace => return (trace, r)
  | none =>
    let trace ← env.resolveTrace { node := r.node, context, bindings := r.bindings }
    return (trace, { r with answer := some trace })

end PonyLens
