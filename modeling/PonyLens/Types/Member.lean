import PonyLens.Types.Inheritance

/-!
# Members

A member with its type, its parameters and its docstring. How types are resolved is a parameter
here; the resolver supplies itself.
-/

namespace PonyLens

/-- What is to be resolved: a node, the type whose parameters may be named, and types that stand for
parameters by name, which come first. -/
structure Request where
  node : Link
  context : Option NominalType := none
  bindings : List (String × NominalType) := []
deriving DecidableEq, Repr

structure MemberParam where
  name : String
  type : Option NominalType
deriving DecidableEq, Repr

structure Member where
  name : String
  docstring : String
  kind : MemberKind
  capability : Capability
  /-- The declared type; of a method the result type. -/
  type : Option NominalType
  definition : NodeId
  /-- The name of the type that declares the member. -/
  declaredIn : String
  /-- Empty unless the member is a method. -/
  params : List MemberParam
deriving DecidableEq, Repr

/-- Private members have a name that starts with an underscore. -/
def Member.isPrivate (m : Member) : Bool := m.name.toList.head? == some '_'

structure MethodLayout where
  capability : Nat
  params : Nat
  result : Nat
  docstring : Nat

def methodLayout : MethodLayout := ⟨0, 3, 4, 7⟩

namespace Env

/-- The type of a part of a member, where `owner` is the context; a failure leaves it open. -/
def typeIn (resolve : Request → ResolveM NominalType) (owner : NominalType) (n : NodeId) :
    CacheM (Option NominalType) := do
  match ← (resolve { node := some n, context := some owner }).run with
  | .ok t => return some t
  | .error _ => return none

def methodParams (env : Env) (resolve : Request → ResolveM NominalType) (site : MemberSite) :
    CacheM (List MemberParam) :=
  (env.arena.children (env.arena.child (some site.node) methodLayout.params)).mapM fun p => do
    return ⟨(env.arena.name? (some p)).getD "", ← typeIn resolve site.owner p⟩

def memberAt (env : Env) (resolve : Request → ResolveM NominalType) (site : MemberSite) :
    CacheM Member := do
  let a := env.arena
  let kind := (a.kind? (some site.node)).getD .absent
  let params ← if kind.isMethod then env.methodParams resolve site else pure []
  let type ← typeIn resolve site.owner site.node
  return {
    name := site.name
    docstring :=
      if kind.isMethod then
        NominalType.docstringAt a (a.child (some site.node) methodLayout.docstring)
      else ""
    kind := .ofKind kind
    capability :=
      if kind.isMethod then .ofKind (a.kind? (a.child (some site.node) methodLayout.capability))
      else .unknown
    type
    definition := site.node
    declaredIn := site.owner.name
    params }

def membersWith (env : Env) (resolve : Request → ResolveM NominalType) (t : NominalType) :
    CacheM (List Member) := do
  (← env.memberSites t).mapM (env.memberAt resolve)

def memberWith (env : Env) (resolve : Request → ResolveM NominalType) (t : NominalType)
    (name : String) : CacheM (Option Member) := do
  match (← env.memberSites t).find? (·.name == name) with
  | some site => return some (← env.memberAt resolve site)
  | none => return none

end Env

end PonyLens
