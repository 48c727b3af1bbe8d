/-!
# Words

Positions, counters, limits and node numbers are 32-bit words. They are kept as `Nat`; only the
largest one shows.
-/

namespace PonyLens.Word

/-- The largest word. Counters stop there, and as a node number it stands for no node. -/
def max : Nat := 4294967295

end PonyLens.Word
