import PonyLens.Arena.Tree
import PonyLens.Text.Quoted

/-!
# Printing dumps

A tree is printed on one line if it fits. Otherwise each child of its root gets a line of its own,
two columns further in, and is laid out by the same rule.
-/

namespace PonyLens

namespace Kind

/-- Kinds whose token stands alone when there are no children. -/
def isBare (k : Kind) : Bool :=
  k.isCapability ||
    match k with
    | absent | partialMark | ephemeral | aliased | bareMark | thisExpr | trueLit | falseLit
    | thisType => true
    | _ => false

end Kind

namespace Tree

def head (kind : Kind) (text : String) : String :=
  match kind with
  | .other => if text.isEmpty then kind.token else text
  | .ident => kind.token ++ " " ++ text
  | .package | .sourceModule =>
    if text.isEmpty then kind.token else kind.token ++ " " ++ Text.Quoted.encode text
  | _ => kind.token

def leaf (kind : Kind) (text : String) : String :=
  match kind with
  | .stringLit => Text.Quoted.encode text
  | .intLit | .floatLit => text
  | .other => head kind text
  | _ => if kind.isBare then kind.token else "(" ++ head kind text ++ ")"

mutual

def flat : Tree → String
  | .node kind text [] => leaf kind text
  | .node kind text (child :: children) =>
    "(" ++ head kind text ++ flatAll (child :: children) ++ ")"

/-- Trees on one line, a space before each. -/
def flatAll : List Tree → String
  | [] => ""
  | t :: ts => " " ++ flat t ++ flatAll ts

end

def newLine (indent : Nat) : String := String.ofList ('\n' :: List.replicate indent ' ')

mutual

/-- The tree in lines of at most `width` bytes, as far as it can be broken, when its first line is
indented by `indent`. -/
def layout (width indent : Nat) : Tree → String
  | .node kind text [] => leaf kind text
  | .node kind text (child :: children) =>
    let line := flat (.node kind text (child :: children))
    if indent + line.utf8ByteSize ≤ width then line
    else "(" ++ head kind text ++ layoutAll width (indent + 2) (child :: children) ++ ")"

def layoutAll (width indent : Nat) : List Tree → String
  | [] => ""
  | t :: ts => newLine indent ++ layout width indent t ++ layoutAll width indent ts

end

end Tree

/-- The dump of the tree below a node; empty if there is no node. -/
def Arena.print (a : Arena) (root : Link) (width : Nat) : String :=
  ((a.tree? root).map (Tree.layout width 0)).getD ""

end PonyLens
