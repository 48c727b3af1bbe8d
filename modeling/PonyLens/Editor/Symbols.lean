import PonyLens.Editor.Records

/-!
# Symbols at a caret

The definition of the name at a caret, and the names that can be used there.
-/

namespace PonyLens.Env

def symbolInfo (env : Env) (name : String) (symbol : Symbol) : SymbolInfo where
  name := name
  kind := ((env.arena.kind? (some symbol.definition)).map Kind.token).getD "unknown"
  status := symbol.status
  definition := env.arena.sourcePlace? (some symbol.definition)

/-- The type of the first child of a node, in the type around the node. -/
def receiverAt (env : Env) (access : Link) : CacheM (Option NominalType) :=
  env.resolve (env.arena.child access 0) (NominalType.enclosing? env.arena access)

def accessOf? (env : Env) (id : NodeId) : Link :=
  let access := env.arena.parent (some id)
  if env.arena.isA access Kind.isMemberAccess && env.arena.child access 1 == some id then access
  else none

/-- The member that an identifier names, if it is the member name of an access. -/
def memberSymbol? (env : Env) (id : NodeId) : CacheM (Option Symbol) := do
  match env.accessOf? id with
  | none => return none
  | some access =>
    match ← env.receiverAt (some access) with
    | none => return none
    | some owner =>
      let member ← env.member? owner (env.arena.text (some id))
      return member.map fun m => ⟨m.definition, .defined⟩

/-- The definition of the name at the caret. A member name is looked for among the members first;
a definition whose place is unknown is not given. -/
def symbolAt (env : Env) (q : CaretQuery) : CacheM (Option SymbolInfo) := do
  match q.identifier? env.arena with
  | none => return none
  | some id =>
    let name := env.arena.text (some id)
    let symbol := (← env.memberSymbol? id).or (env.scopes.lookup env.arena (some id) name)
    return (symbol.map (env.symbolInfo name)).filter (·.definition.isSome)

def scopeAt (env : Env) (q : CaretQuery) : List SymbolInfo :=
  match q.nodeBefore? env.arena with
  | none => []
  | some n =>
    (env.scopes.visible env.arena (some n)).map fun (name, symbol) => env.symbolInfo name symbol

end PonyLens.Env
