/-!
# Limits

Trees may be malformed, so every walk over them is bounded by one of these numbers.
-/

namespace PonyLens.Limits

/-- How deep resolutions may nest: each member access, qualification and type argument adds one. -/
def nesting : Nat := 64

/-- How many nodes one resolution may pass through. -/
def frames : Nat := 4096

/-- How deep provides-lists are followed. -/
def providesDepth : Nat := 64

/-- How many types one collection of members may visit. -/
def providesVisits : Nat := 10000

/-- The line width of a printed dump when none is asked for. -/
def dumpWidth : Nat := 80

def dumpDepth : Nat := 512

end PonyLens.Limits
