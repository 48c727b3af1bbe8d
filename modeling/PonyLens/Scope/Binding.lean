import PonyLens.Scope.Table

/-!
# Binding names

Builds the scope table of a tree. A declaration goes to the scope of the nearest node around it that
owns one, with three exceptions. A type goes to its package, and a type of the package `builtin` to
the program too, so that it is known everywhere. A package goes to the program. A use clause binds a
package under its alias, or under the last segment of its path.
-/

namespace PonyLens

structure Declaration where
  owner : Link
  name : Atom
  symbol : Symbol
deriving DecidableEq, Repr

/-- The part of a package path after its last slash. -/
def lastSegment (path : String) : String :=
  String.ofList (path.toList.reverse.takeWhile (· != '/')).reverse

namespace ScopeTable

/-- The table of a tree in which nothing is declared yet. -/
def bare (a : Arena) (root : Link) : ScopeTable where
  scopes := ((a.descendants root).filter fun n => a.isA (some n) Kind.opensScope).map (·, .empty)
  program := if a.is root .program then root else none

def ownerOf (t : ScopeTable) (a : Arena) (n : NodeId) : Link :=
  (a.ancestors (some n)).find? t.owns

/-- The package that a path names: the first one of the program with this path or with its last
segment. -/
def package? (t : ScopeTable) (a : Arena) (path : String) : Link :=
  (a.children t.program).find? fun p =>
    a.is (some p) .package &&
      (a.text (some p) == path || lastSegment (a.text (some p)) == lastSegment path)

/-- The declaration that a use clause makes, if it names a package. -/
def useDeclaration? (t : ScopeTable) (a : Arena) (n : NodeId) : Option Declaration := do
  let path := a.text (a.firstChild (some n) .stringLit)
  if path.isEmpty then none
  else
    let package ← t.package? a path
    let given := a.child (some n) 0
    let name ← if a.is given .ident then some (a.atom given) else a.names.get? (lastSegment path)
    some ⟨t.ownerOf a n, name, ⟨package, .defined⟩⟩

def localStatus (a : Arena) (n : NodeId) (kind : Kind) : SymbolStatus :=
  if kind == .matchCapture || a.is (a.parent (some n)) .assign then .defined else .undefined

def declarations (t : ScopeTable) (a : Arena) (n : NodeId) : List Declaration :=
  let name := a.nameAtom (some n)
  match a.kind? (some n) with
  | none => []
  | some .package =>
    match t.program, a.names.get? (lastSegment (a.text (some n))) with
    | some program, some atom => [⟨some program, atom, ⟨n, .defined⟩⟩]
    | _, _ => []
  | some .useClause => (t.useDeclaration? a n).toList
  | some .letLocal => [⟨t.ownerOf a n, name, ⟨n, localStatus a n .letLocal⟩⟩]
  | some .varLocal => [⟨t.ownerOf a n, name, ⟨n, localStatus a n .varLocal⟩⟩]
  | some .matchCapture => [⟨t.ownerOf a n, name, ⟨n, localStatus a n .matchCapture⟩⟩]
  | some kind =>
    if kind.isTypeDefinition then
      let package := a.enclosing (some n) (· == .package)
      let owner := if package.isSome then package else t.ownerOf a n
      ⟨owner, name, ⟨n, .defined⟩⟩ ::
        (if a.text package == "builtin" then [⟨t.program, name, ⟨n, .defined⟩⟩] else [])
    else if kind.isField || kind.isMethod || kind == .param || kind == .typeParam then
      [⟨t.ownerOf a n, name, ⟨n, .defined⟩⟩]
    else []

/-- Adds a declaration to its scope. Nothing is declared under the empty name. -/
def declare (t : ScopeTable) (d : Declaration) : ScopeTable :=
  match d.owner with
  | some owner => if d.name.isEmpty then t else t.modify owner (·.declare d.name d.symbol)
  | none => t

def consumedName? (a : Arena) (n : NodeId) : Option Atom :=
  let target := a.lastChild (some n)
  let name := a.nameAtom target
  if a.isA target Kind.isReference && !name.isEmpty then some name else none

/-- Marks what a consume node gives away: the declaration that its name leads to, if it is a local
or a parameter. -/
def markConsumed (a : Arena) (t : ScopeTable) (n : NodeId) : ScopeTable :=
  match consumedName? a n with
  | none => t
  | some name =>
    let found := (a.ancestors (a.lastChild (some n))).findSome? fun owner =>
      ((t.scope? owner).bind (·.find? name)).map fun symbol => (owner, symbol)
    match found with
    | some (owner, symbol) =>
      match a.kind? (some symbol.definition) with
      | some .letLocal | some .varLocal | some .param => t.modify owner (·.consume name)
      | _ => t
    | none => t

def bind (a : Arena) (root : Link) : ScopeTable :=
  let nodes := a.descendants root
  let t := (nodes.flatMap (bare a root |>.declarations a)).foldl declare (bare a root)
  (nodes.filter fun n => a.is (some n) .consume).foldl (markConsumed a) t

end ScopeTable

end PonyLens
