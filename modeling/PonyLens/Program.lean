import PonyLens.Dump.Reader
import PonyLens.Scope.Binding
import PonyLens.Types.Definitions

/-!
# Programs

A program is a tree that has been read and whose names have been bound.
-/

namespace PonyLens

/-- A tree in an arena, and its scopes. -/
structure Program where
  arena : Arena
  root : Link
  scopes : ScopeTable
deriving DecidableEq, Repr

namespace Program

def ofRoot (a : Arena) (root : Link) : Program := ⟨a, root, .bind a root⟩

def ofDump (source : String) : Except Dump.ReadError Program := do
  let (root, a) ← Dump.readNew source
  return ofRoot a (some root)

def env (p : Program) (options : Options) : Env := ⟨p.arena, p.scopes, options⟩

end Program

end PonyLens
