import PonyLens.Word

/-!
# Locations and carets

Lines and columns count from 1. A `Location` is where a node starts, a `Caret` is where the cursor
of an editor sits.
-/

namespace PonyLens

/-- Where a node starts. Line 0 stands for an unknown place. -/
structure Location where
  line : Nat
  column : Nat
deriving DecidableEq, Repr

namespace Location

def unknown : Location := ⟨0, 0⟩

def start : Location := ⟨1, 1⟩

def isKnown (l : Location) : Bool := l.line != 0

/-- Whether a place comes before another one: the line counts first. -/
def isBefore (l m : Location) : Bool := l.line < m.line || l.line == m.line && l.column < m.column

def after (l : Location) (c : Char) : Location :=
  if c = '\n' then ⟨l.line + 1, 1⟩ else ⟨l.line, l.column + 1⟩

end Location

structure Caret where
  line : Nat
  column : Nat
deriving DecidableEq, Repr

def Caret.toLocation (c : Caret) : Location := ⟨c.line, c.column⟩

/-- Whether the caret touches a token of `length` characters that starts at `start`. The place right
after the token counts, so that a half-typed name is found. -/
def Caret.touches (c : Caret) (start : Location) (length : Nat) : Bool :=
  c.line == start.line && start.column ≤ c.column &&
    c.column ≤ min (start.column + length) Word.max

end PonyLens
