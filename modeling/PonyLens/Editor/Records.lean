import PonyLens.Editor.CaretSearch
import PonyLens.Json
import PonyLens.Types.Resolution

/-!
# Records for editors

What the editor services answer, and the fields under which the answers are written.
-/

namespace PonyLens

structure TypeInfo where
  name : String
  docstring : String
  capability : Capability
  /-- The names of the arguments in the order of the parameters, as far as they resolve. -/
  typeArgs : List (Option String)
deriving DecidableEq, Repr

structure ParamInfo where
  name : String
  type : Option TypeInfo
deriving DecidableEq, Repr

structure MemberInfo where
  name : String
  docstring : String
  kind : MemberKind
  capability : Capability
  type : Option TypeInfo
  /-- Given for members that take arguments. -/
  params : Option (List ParamInfo)
  declaredIn : String
deriving DecidableEq, Repr

structure SourcePlace where
  file : String
  location : Location
deriving DecidableEq, Repr

structure SymbolInfo where
  name : String
  /-- The token of the definition's kind. -/
  kind : String
  status : SymbolStatus
  definition : Option SourcePlace
deriving DecidableEq, Repr

structure HoverInfo where
  /-- The identifier or the literal. -/
  name : String
  /-- The token of the expression's kind. -/
  kind : String
  type : TypeInfo
  docstring : String
deriving DecidableEq, Repr

structure Completions where
  /-- Whether the caret is on the name of a member. -/
  isMemberCompletion : Bool
  members : List MemberInfo := []
  symbols : List SymbolInfo := []
deriving DecidableEq, Repr

/-! ### Records of types, members and nodes -/

namespace Env

def argumentName (env : Env) (t : NominalType) (param : NodeId) : CacheM (Option String) := do
  match env.arena.name? (some param) with
  | some name => return (← env.typeArgument t name).map NominalType.name
  | none => return none

def typeInfo (env : Env) (t : NominalType) : CacheM TypeInfo := do
  let typeArgs ←
    if t.args.isSome then t.head.typeParams.mapM (env.argumentName t) else pure []
  return {
    name := t.name
    docstring := t.head.docstring
    capability := t.head.capability
    typeArgs }

def typeInfo? (env : Env) : Option NominalType → CacheM (Option TypeInfo)
  | some t => return some (← env.typeInfo t)
  | none => return none

def memberInfo (env : Env) (m : Member) : CacheM MemberInfo := do
  let type ← env.typeInfo? m.type
  let params ← m.params.mapM fun p => return ParamInfo.mk p.name (← env.typeInfo? p.type)
  return {
    name := m.name
    docstring := m.docstring
    kind := m.kind
    capability := m.capability
    type
    params := if m.kind.isCallable then some params else none
    declaredIn := m.declaredIn }

end Env

def Arena.sourcePlace? (a : Arena) (l : Link) : Option SourcePlace :=
  let location := a.location l
  if location.isKnown then some ⟨(a.moduleFile? l).getD "", location⟩ else none

/-! ### Fields -/

def TypeInfo.toJson (t : TypeInfo) : Json :=
  .record ([("name", .text t.name)] ++ Json.textField "docstring" t.docstring ++
    [("default_capability", .text t.capability.label)] ++
    Json.listField "type_args" (Json.ofOption .text) t.typeArgs)

def ParamInfo.toJson (p : ParamInfo) : Json :=
  .record ([("name", .text p.name)] ++ Json.optionField "type" TypeInfo.toJson p.type)

def MemberInfo.toJson (m : MemberInfo) : Json :=
  .record ([("name", .text m.name)] ++ Json.textField "docstring" m.docstring ++
    [("kind", .text m.kind.label), ("capability", .text m.capability.label)] ++
    Json.optionField "type" TypeInfo.toJson m.type ++
    Json.optionField "params" (fun ps => .list (ps.map ParamInfo.toJson)) m.params ++
    [("declared_in", .text m.declaredIn)])

def SourcePlace.toJson (p : SourcePlace) : Json :=
  .record [("file", .text p.file), ("line", .number p.location.line),
    ("column", .number p.location.column)]

def SymbolInfo.toJson (s : SymbolInfo) : Json :=
  .record ([("name", .text s.name), ("kind", .text s.kind), ("status", .text s.status.label)] ++
    Json.optionField "definition" SourcePlace.toJson s.definition)

def HoverInfo.toJson (h : HoverInfo) : Json :=
  .record ([("name", .text h.name), ("kind", .text h.kind), ("type", h.type.toJson)] ++
    Json.textField "docstring" h.docstring)

def Completions.toJson (c : Completions) : Json :=
  .record ([("is_member_completion", .bool c.isMemberCompletion)] ++
    Json.listField "members" MemberInfo.toJson c.members ++
    Json.listField "symbols" SymbolInfo.toJson c.symbols)

end PonyLens
