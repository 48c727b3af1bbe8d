import PonyLens.Arena.Basic

/-!
# Caches

A node that names a type definition is bound to it when it is first resolved. A binding is made once
and never changes. It belongs to an arena, and lives apart from it.
-/

namespace PonyLens

structure Cache where
  bindings : List (NodeId × Link)
deriving DecidableEq, Repr

namespace Cache

def empty : Cache := ⟨[]⟩

/-- The binding of a node. A node may be bound to no node. -/
def find? (c : Cache) (l : Link) : Option Link := l.bind fun n => c.bindings.lookup n

/-- Binds a node of the arena unless it is bound. Gives the binding in effect, which is no node if
the arena has no such node. -/
def bind (c : Cache) (a : Arena) (l target : Link) : Link × Cache :=
  match c.find? l, l, a.get? l with
  | some bound, _, _ => (bound, c)
  | none, some n, some _ => (target, ⟨(n, target) :: c.bindings⟩)
  | _, _, _ => (none, c)

end Cache

end PonyLens
