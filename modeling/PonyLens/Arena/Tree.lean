import PonyLens.Arena.Basic

/-!
# Trees

What an arena holds below a node, as a value of its own: kinds, texts and children in order, without
node numbers and positions. Two dumps describe the same program when their trees are equal.
-/

namespace PonyLens

inductive Tree where
  | node (kind : Kind) (text : String) (children : List Tree)
deriving Repr

namespace Tree

def kind : Tree → Kind
  | .node kind _ _ => kind

def text : Tree → String
  | .node _ text _ => text

def children : Tree → List Tree
  | .node _ _ children => children

end Tree

namespace Arena

/-- The tree below a node, cut off below `levels` levels. -/
def treeWithin (a : Arena) : Nat → NodeId → Option Tree
  | 0, _ => none
  | levels + 1, n =>
    (a.get? (some n)).map fun node =>
      .node node.kind (a.names.text node.text) (node.children.filterMap (a.treeWithin levels))

/-- The tree below a node. A tree without cycles has no more levels than the arena has nodes. -/
def tree? (a : Arena) (l : Link) : Option Tree := l.bind (a.treeWithin a.size)

end Arena

end PonyLens
