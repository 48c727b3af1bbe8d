import PonyLens.Kind
import PonyLens.Name
import PonyLens.Location

/-!
# Arenas

An arena stores the nodes of trees in order of creation and refers to them by number. Every node
knows its children and its parent, so that a tree can be walked in both directions. Questions about
a node take a `Link`, which may lead nowhere: no node then has no kind, no text and no children.
-/

namespace PonyLens

/-- The number of a node: how many nodes were created before it. -/
abbrev NodeId := Nat

/-- A node, or no node. The number need not be one of an existing node. -/
abbrev Link := Option NodeId

def Link.describe (l : Link) : String := s!"NodeIndex({l.getD Word.max})"

structure Node where
  kind : Kind
  /-- The identifier, literal or package text; empty if there is none. -/
  text : Atom
  location : Location
  parent : Link := none
  children : List NodeId := []
deriving DecidableEq, Repr

/-- Nodes in order of creation, and the names they mention. -/
structure Arena where
  names : NameTable
  nodes : Array Node
deriving DecidableEq, Repr

/-- The node that should have become a child does not exist or has a parent already. -/
structure AttachError where
  child : Link
deriving DecidableEq, Repr

def AttachError.message (e : AttachError) : String :=
  s!"append_child: {e.child.describe} is missing or already attached"

namespace Arena

/-- The arena without nodes. It knows the common names. -/
def empty : Arena := ⟨NameTable.empty.internCommon, #[]⟩

instance : Inhabited Arena := ⟨empty⟩

def size (a : Arena) : Nat := a.nodes.size

def isEmpty (a : Arena) : Bool := a.nodes.isEmpty

/-! ### Questions about one node -/

def get? (a : Arena) (l : Link) : Option Node := l.bind fun n => a.nodes[n]?

def kind? (a : Arena) (l : Link) : Option Kind := (a.get? l).map Node.kind

theorem lt_size_of_kind? {a : Arena} {n : NodeId} {kind : Kind} (h : a.kind? (some n) = some kind) :
    n < a.size := by
  obtain ⟨node, hnode, _⟩ := Option.map_eq_some_iff.mp h
  exact (Array.getElem?_eq_some_iff.mp hnode).1

def is (a : Arena) (l : Link) (k : Kind) : Bool := a.kind? l == some k

def isA (a : Arena) (l : Link) (p : Kind → Bool) : Bool := (a.kind? l).any p

def children (a : Arena) (l : Link) : List NodeId := ((a.get? l).map Node.children).getD []

/-- The child at a position, counted from 0. -/
def child (a : Arena) (l : Link) (i : Nat) : Link := (a.children l)[i]?

def lastChild (a : Arena) (l : Link) : Link := (a.children l).getLast?

def firstChild (a : Arena) (l : Link) (k : Kind) : Link :=
  (a.children l).find? fun c => a.is (some c) k

def parent (a : Arena) (l : Link) : Link := (a.get? l).bind Node.parent

def location (a : Arena) (l : Link) : Location := ((a.get? l).map Node.location).getD .unknown

def atom (a : Arena) (l : Link) : Atom := ((a.get? l).map Node.text).getD .empty

def text (a : Arena) (l : Link) : String := a.names.text (a.atom l)

def nameAtom (a : Arena) (l : Link) : Atom := a.atom (a.firstChild l .ident)

/-- The text of the first identifier child, which names members, declarations and references. -/
def name? (a : Arena) (l : Link) : Option String :=
  (a.firstChild l .ident).map fun c => a.text (some c)

/-! ### Construction -/

def addNode (a : Arena) (kind : Kind) (text : String) (location : Location) : NodeId × Arena :=
  let (atom, names) := a.names.intern text
  (a.size, ⟨names, a.nodes.push { kind, text := atom, location }⟩)

def modify (a : Arena) (l : Link) (f : Node → Node) : Arena :=
  match l with
  | some n => { a with nodes := a.nodes.modify n f }
  | none => a

/-- Makes `child` the last child of `parent`. The child has to exist and to have no parent. -/
def appendChild (a : Arena) (parent child : Link) : Except AttachError Arena :=
  match child, a.get? child with
  | some c, some { parent := none, .. } =>
    .ok ((a.modify parent fun p => { p with children := p.children ++ [c] }).modify child
      fun n => { n with parent := parent })
  | _, _ => .error ⟨child⟩

/-- Appends children in order and stops at the first that cannot become a child. -/
def appendChildren (a : Arena) (parent : Link) : List Link → Arena × Except AttachError Unit
  | [] => (a, .ok ())
  | child :: rest =>
    match a.appendChild parent child with
    | .ok a => a.appendChildren parent rest
    | .error e => (a, .error e)

def add (a : Arena) (kind : Kind) (text : String) (children : List Link) :
    Arena × Except AttachError NodeId :=
  let (n, a) := a.addNode kind text .unknown
  let (a, outcome) := a.appendChildren (some n) children
  (a, outcome.map fun _ => n)

def setLocation (a : Arena) (l : Link) (location : Location) : Arena :=
  a.modify l fun n => { n with location := location }

end Arena

end PonyLens
