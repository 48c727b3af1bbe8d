import PonyLens.Arena.Basic

/-!
# Walks over an arena

Up from a node over its parents, and down over its children. Children are appended to one parent at
most and trees have no cycles, so neither walk meets a node twice: the number of nodes bounds both.
-/

namespace PonyLens.Arena

/-- The first `limit` links of the chain that starts at `l` and goes on with parents. -/
def climb (a : Arena) : Nat → Link → List NodeId
  | _, none => []
  | 0, some _ => []
  | limit + 1, some n => n :: a.climb limit (a.parent (some n))

/-- The parent, the parent's parent and so on. The last one need not exist. -/
def ancestors (a : Arena) (l : Link) : List NodeId := a.climb a.size (a.parent l)

def enclosing (a : Arena) (l : Link) (p : Kind → Bool) : Link :=
  (a.ancestors l).find? fun n => a.isA (some n) p

/-- Visits the pending nodes in turn, each followed by its children, up to `limit` nodes. Numbers
without a node are skipped. -/
def visit (a : Arena) : Nat → List NodeId → List NodeId
  | _, [] => []
  | 0, _ :: _ => []
  | limit + 1, n :: pending =>
    match a.nodes[n]? with
    | some node => n :: a.visit limit (node.children ++ pending)
    | none => a.visit limit pending

/-- The nodes of the tree below `root` in pre-order, `root` included. -/
def descendants (a : Arena) (root : Link) : List NodeId := a.visit a.size root.toList

end PonyLens.Arena
