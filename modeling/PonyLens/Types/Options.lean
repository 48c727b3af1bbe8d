import PonyLens.Limits

/-!
# Options of type resolution
-/

namespace PonyLens

/-- Which statement gives a block its type. -/
inductive BlockValue where
  | first
  | last
deriving DecidableEq, Repr

def BlockValue.label : BlockValue → String
  | first => "first"
  | last => "last"

structure Options where
  blockValue : BlockValue := .first
  /-- How deep resolutions may nest. -/
  maxNesting : Nat := Limits.nesting
  /-- How many nodes one resolution may pass through. -/
  maxFrames : Nat := Limits.frames
deriving DecidableEq, Repr

end PonyLens
