import PonyLens.Arena.Walk
import PonyLens.Editor.FilePath

/-!
# Finding nodes at a caret

A caret question is about the tree below a root, and may be restricted to one source file.
-/

namespace PonyLens

namespace Arena

def moduleFile? (a : Arena) (l : Link) : Option String :=
  let m := if a.is l .sourceModule then l else a.enclosing l (· == .sourceModule)
  m.map fun n => a.text (some n)

/-- Whether a node lies in a file. Every node does if no file is asked for. -/
def isInFile (a : Arena) (l : Link) (file : Option String) : Bool :=
  match file with
  | none => true
  | some file => (a.moduleFile? l).any fun m => FilePath.agree m file

/-- The number of characters of the token that a node starts with in its source file. -/
def tokenLength (a : Arena) (l : Link) : Nat :=
  let text := a.text l
  match a.kind? l with
  | some .stringLit => text.length + 2
  | some .trueLit => 4
  | some .falseLit => 5
  | some _ => if text.isEmpty then 1 else text.length
  | none => 1

end Arena

structure CaretQuery where
  root : Link
  caret : Caret
  file : Option String := none
deriving DecidableEq, Repr

namespace CaretQuery

/-- Of the nodes, one whose place is not before that of any other; the last such node. -/
def latest? (a : Arena) (nodes : List NodeId) : Link :=
  nodes.foldl (fun best n =>
    match best with
    | some b => if (a.location (some n)).isBefore (a.location (some b)) then best else some n
    | none => some n) none

def touched (q : CaretQuery) (a : Arena) (p : Kind → Bool) : List NodeId :=
  (a.descendants q.root).filter fun n =>
    a.isA (some n) p && (a.location (some n)).isKnown &&
      q.caret.touches (a.location (some n)) (a.tokenLength (some n)) && a.isInFile (some n) q.file

def identifier? (q : CaretQuery) (a : Arena) : Link := latest? a (q.touched a (· == .ident))

/-- Literals that are written as one token. -/
def isTokenLiteral (k : Kind) : Bool := k.builtinType?.isSome && k != .arrayLit

def literal? (q : CaretQuery) (a : Arena) : Link := latest? a (q.touched a isTokenLiteral)

def nodeBefore? (q : CaretQuery) (a : Arena) : Link :=
  latest? a <| (a.descendants q.root).filter fun n =>
    let place := a.location (some n)
    place.isKnown && !q.caret.toLocation.isBefore place && a.isInFile (some n) q.file

end CaretQuery

end PonyLens
