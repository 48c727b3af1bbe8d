import PonyLens.Types.Member
import PonyLens.Types.Rule

/-!
# Resolving types

Most nodes have the type of another node: a local that of its annotation, a call that of what is
called, a reference that of its definition. A resolution follows such nodes one after the other, a
frame for each, until a frame has a type of its own or fails. A node that comes up again is a cycle.

The receiver of a member access, the type of a member and a type argument are resolved by
resolutions of their own. Those nest, and `room` counts the levels that are left; without room there
is no type.
-/

namespace PonyLens

structure Frame where
  node : Link
  /-- The capability through which the value is seen. It is noted and has no effect on the type. -/
  viewpoint : Option Capability := none
deriving DecidableEq, Repr

inductive Step where
  | next (frame : Frame)
  | done (type : NominalType)
deriving DecidableEq, Repr

/-- A finished resolution: the frames in order, the last one perhaps refused, and its outcome. -/
structure Trace where
  frames : List Frame
  outcome : Except ResolveError NominalType

/-- The ways in which a resolution may start others, one level deeper. -/
structure Deeper where
  resolve : Request → ResolveM NominalType
  member : NominalType → String → ResolveM (Option Member)

namespace Env

/-! ### One frame -/

/-- Goes on with a node. A node of the kind `kind` without such a node has no type. -/
def follow (kind : Kind) (target : Link) : ResolveM Step :=
  match target with
  | some n => return .next { node := some n }
  | none => throw (.untyped kind)

def written (env : Env) (l : Link) : Link := if env.arena.is l .absent then none else l

def typeArgumentWith (env : Env) (resolve : Request → ResolveM NominalType) (t : NominalType)
    (name : String) : ResolveM NominalType :=
  let arg : Link := do (← t.args)[← t.paramIndex? env.arena name]?.join
  match arg with
  | some n => resolve { node := some n, context := some (t.outer?.getD t) }
  | none => throw (.unboundArgument name)

/-- The type that a type parameter stands for: one bound by name, or an argument of the context. -/
def typeParameter (env : Env) (deeper : Deeper) (req : Request) (node : Link) :
    ResolveM NominalType :=
  let name := (env.arena.name? node).getD ""
  match req.bindings.lookup name, req.context with
  | some t, _ => return t
  | none, some context => env.typeArgumentWith deeper.resolve context name
  | none, none => throw (.missingContext name)

def namedType (env : Env) (req : Request) (node : Link) : ResolveM NominalType := do
  match NominalType.ofDefinition? env.arena (← env.nominalDefinition node) with
  | none => throw (.untyped .nominal)
  | some t =>
    let args := env.arena.child node 2
    if env.arena.is args .typeArgs then return t.bindArguments env.arena args req.context
    else return t

/-- The type whose body a node stands in. If that is the context, its arguments carry over. -/
def selfType (env : Env) (req : Request) (node : Link) : ResolveM NominalType :=
  let a := env.arena
  let definition := a.enclosing node Kind.isTypeDefinition
  match definition, req.context with
  | none, _ => throw (.untyped ((a.kind? node).getD .absent))
  | some d, some context =>
    if context.definition = d then return context else plain a definition
  | some _, none => plain a definition
where
  /-- The type of the definition, without arguments. -/
  plain (a : Arena) (definition : Link) : ResolveM NominalType :=
    match NominalType.ofDefinition? a definition with
    | some t => return t
    | none => throw (.untyped ((a.kind? definition).getD .absent))

def memberType (env : Env) (deeper : Deeper) (owner : NominalType) (name : String) :
    ResolveM NominalType := do
  match ← deeper.member owner name with
  | none => throw (.memberNotFound owner.name name)
  | some m =>
    match m.type with
    | some t => return t
    | none => throw (.untyped ((env.arena.kind? (some m.definition)).getD .absent))

/-- The type of the first child of a node, resolved one level deeper. -/
def receiver (env : Env) (deeper : Deeper) (req : Request) (node : Link) : ResolveM NominalType :=
  deeper.resolve { req with node := env.arena.child node 0 }

/-- Follows the symbol that a reference names, or takes the type of a member of its first child. -/
def reference (env : Env) (deeper : Deeper) (req : Request) (node : Link) (kind : Kind) :
    ResolveM Step := do
  let a := env.arena
  let first := a.child node 0
  let member := a.child node 1
  if a.is first .ident then
    match env.scopes.lookup a node (a.text first) with
    | some symbol => follow kind (some symbol.definition)
    | none => throw (.symbolNotFound (a.text first))
  else if first.isSome && a.is member .ident then
    return .done (← env.memberType deeper (← env.receiver deeper req node) (a.text member))
  else throw (.untyped kind)

def declaredType (env : Env) (declaration : Link) : Link :=
  env.written (env.arena.child declaration 1)

def step (env : Env) (deeper : Deeper) (req : Request) (node : Link) : ResolveM Step := do
  let a := env.arena
  match a.kind? node with
  | none => throw (.unsupported .absent)
  | some kind =>
    match kind.typeRule with
    | .definition =>
      match NominalType.ofDefinition? a node with
      | some t => return .done t
      | none => throw (.untyped kind)
    | .builtin name =>
      follow kind (← env.cachedDefinition node (env.builtinDefinition node name))
    | .openLiteral => follow kind (((← get).find? node).getD (a.child node 0))
    | .typeParameter => return .done (← env.typeParameter deeper req node)
    | .named => return .done (← env.namedType req node)
    | .reference => env.reference deeper req node kind
    | .declaration =>
      let parent := a.parent node
      follow kind ((env.declaredType node).or (if a.is parent .assign then parent else none))
    | .call => follow kind (a.child node 0)
    | .method => follow kind (env.written (a.child node methodLayout.result))
    | .constructor =>
      match env.written (a.child node methodLayout.result) with
      | some result => follow kind (some result)
      | none => return .done (← env.selfType req node)
    | .assignment =>
      let left := a.child node 0
      let declared := if a.isA left Kind.isDeclaration then env.declaredType left else none
      follow kind (declared.or (a.child node 1))
    | .qualification =>
      return .done ((← env.receiver deeper req node).bindArguments a (a.child node 1) req.context)
    | .access =>
      let owner ← env.receiver deeper req node
      return .done (← env.memberType deeper owner (a.text (a.child node 1)))
    | .chain => return .done (← env.receiver deeper req node)
    | .viewpoint =>
      match a.child node 1 with
      | none => throw (.untyped kind)
      | some target =>
        let capability := Capability.ofKind (a.kind? (a.child node 0))
        return .next ⟨some target, if capability = .unknown then none else some capability⟩
    | .block =>
      follow kind (match env.options.blockValue with
        | .first => a.child node 0
        | .last => a.lastChild node)
    | .lastChild => follow kind (a.lastChild node)
    | .self => return .done (← env.selfType req node)
    | .unsupported => throw (.unsupported kind)

/-! ### All frames -/

/-- Takes frames one after the other, from `frame` on. The guard has entered the nodes of the frames
before; each frame that is granted brings it closer to its depth limit. -/
def run (step : Link → ResolveM Step) (guard : Guard Link) (frame : Frame) : CacheM Trace :=
  match _h : guard.enter frame.node with
  | (.entered, guard') => do
    match ← (step frame.node).run with
    | .ok (.done t) => return ⟨[frame], .ok t⟩
    | .ok (.next next) =>
      let rest ← run step guard' next
      return { rest with frames := frame :: rest.frames }
    | .error e => return ⟨[frame], .error e⟩
  | (.cycle, _) => return ⟨[frame], .error (.cycle frame.node)⟩
  | (.tooDeep, _) | (.tooMany, _) => return ⟨[frame], .error (.frameLimit guard.maxDepth)⟩
termination_by guard.maxDepth - guard.depth
decreasing_by
  have := Guard.depth_of_enter_eq_entered _h
  omega

def trace (env : Env) (deeper : Deeper) (req : Request) : CacheM Trace :=
  let limit := env.options.maxFrames
  run (env.step deeper req) { maxDepth := limit, maxVisits := limit } { node := req.node }

mutual

/-- The type of a node, with room for so many levels of resolutions, this one included. -/
def resolveIn (env : Env) : Nat → Request → ResolveM NominalType
  | 0, _ => throw (.depthExceeded env.options.maxNesting)
  | room + 1, req => ExceptT.mk do
    return (← env.trace ⟨env.resolveIn room, env.memberIn room⟩ req).outcome

def memberIn (env : Env) : Nat → NominalType → String → ResolveM (Option Member)
  | 0, _, _ => throw (.depthExceeded env.options.maxNesting)
  | room + 1, t, name => env.memberWith (env.resolveIn room) t name

end

def membersIn (env : Env) : Nat → NominalType → ResolveM (List Member)
  | 0, _ => throw (.depthExceeded env.options.maxNesting)
  | room + 1, t => env.membersWith (env.resolveIn room) t

/-! ### Questions -/

/-- The room of a question that is not part of another. -/
def room (env : Env) : Nat := env.options.maxNesting + 1

def tryResolve (env : Env) (req : Request) : ResolveM NominalType := env.resolveIn env.room req

def resolveTrace (env : Env) (req : Request) : CacheM Trace :=
  env.trace ⟨env.resolveIn env.options.maxNesting, env.memberIn env.options.maxNesting⟩ req

def resolve (env : Env) (node : Link) (context : Option NominalType) :
    CacheM (Option NominalType) :=
  return (← (env.tryResolve { node, context }).run).toOption

def tryMembers (env : Env) (t : NominalType) : ResolveM (List Member) := env.membersIn env.room t

/-- The members of a type; none if they cannot be listed. -/
def members (env : Env) (t : NominalType) : CacheM (List Member) :=
  return (← (env.tryMembers t).run).toOption.getD []

def tryMember (env : Env) (t : NominalType) (name : String) : ResolveM (Option Member) :=
  env.memberIn env.room t name

def member? (env : Env) (t : NominalType) (name : String) : CacheM (Option Member) :=
  return (← (env.tryMember t name).run).toOption.join

def typeArgument (env : Env) (t : NominalType) (name : String) : CacheM (Option NominalType) :=
  return (← (env.typeArgumentWith (env.resolveIn env.options.maxNesting) t name).run).toOption

end Env

end PonyLens
