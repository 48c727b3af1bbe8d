import PonyLens.Kind

/-!
# Typing rules

How the type of a node is found depends on its kind. `Kind.typeRule` says which rule applies.
-/

namespace PonyLens

inductive TypeRule where
  /-- A type definition is its own type. -/
  | definition
  /-- A literal has the builtin type of this name. -/
  | builtin (name : String)
  /-- A literal of open type has the type it is bound to, or that of its first child. -/
  | openLiteral
  /-- A type parameter stands for the argument bound to it. -/
  | typeParameter
  /-- The node names a type. -/
  | named
  /-- The node refers to a declaration, or to a member of its first child. -/
  | reference
  /-- A declaration has the type it is annotated with, or that of the assignment it stands in. -/
  | declaration
  /-- A call has the type of what is called. -/
  | call
  /-- A method has its result type. -/
  | method
  /-- A constructor without a result type gives the type around it. -/
  | constructor
  /-- An assignment has the annotation of its left side, or the type of its right side. -/
  | assignment
  /-- The type of the first child, with type arguments. -/
  | qualification
  /-- The type of a member of the first child. -/
  | access
  /-- An access that gives its receiver. -/
  | chain
  /-- The type of the second child, seen through a capability. -/
  | viewpoint
  /-- A block has the type of one of its statements. -/
  | block
  /-- The type of the last child. -/
  | lastChild
  /-- The type around the node. -/
  | self
  /-- There is no rule. -/
  | unsupported
deriving DecidableEq, Repr

def Kind.typeRule (k : Kind) : TypeRule :=
  match k with
  | .literal => .openLiteral
  | .typeParamRef => .typeParameter
  | .nominal | .typeRef => .named
  | .call => .call
  | .funDef | .beDef => .method
  | .newDef => .constructor
  | .assign => .assignment
  | .qualify => .qualification
  | .dot | .tilde => .access
  | .chain => .chain
  | .arrow => .viewpoint
  | .seq => .block
  | .recover | .consume => .lastChild
  | .thisExpr => .self
  | _ =>
    if k.isTypeDefinition then .definition
    else if k.isReference then .reference
    else if k.isDeclaration then .declaration
    else match k.builtinType? with
      | some name => .builtin name
      | none => .unsupported

end PonyLens
