import PonyLens.Editor.Symbols
import PonyLens.Text.Literal

/-!
# Hovering

The type of the expression at a caret: what the identifier there is the name of, or a literal.
-/

namespace PonyLens.Env

def literalText (a : Arena) (literal : NodeId) : String :=
  match a.kind? (some literal) with
  | some .stringLit => Text.Literal.encode (a.text (some literal))
  | some .trueLit => "true"
  | some .falseLit => "false"
  | _ => a.text (some literal)

def hovered? (env : Env) (q : CaretQuery) : Option (String × Link) :=
  let a := env.arena
  match q.identifier? a with
  | some id => some (a.text (some id), a.parent (some id))
  | none => (q.literal? a).map fun literal => (literalText a literal, some literal)

/-- The docstring of a method, or of the member that an access names. -/
def hoverDocstring (env : Env) (target : Link) : CacheM String := do
  let a := env.arena
  if a.isA target Kind.isMethod then
    return NominalType.docstringAt a (a.child target methodLayout.docstring)
  else if a.is target .dot || a.is target .tilde then
    match ← env.receiverAt target with
    | none => return ""
    | some owner =>
      return ((← env.member? owner (a.text (a.child target 1))).map Member.docstring).getD ""
  else return ""

/-- What is known of the expression at the caret, if it has a type. -/
def hover (env : Env) (q : CaretQuery) : CacheM (Option HoverInfo) := do
  match env.hovered? q with
  | none => return none
  | some (name, target) =>
    match ← env.resolve target (NominalType.enclosing? env.arena target) with
    | none => return none
    | some t =>
      let type ← env.typeInfo t
      let docstring ← env.hoverDocstring target
      let kind := ((env.arena.kind? target).map Kind.token).getD "unknown"
      return some { name, kind, type, docstring }

end PonyLens.Env
