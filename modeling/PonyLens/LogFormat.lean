/-!
# Log formats
-/

namespace PonyLens

inductive LogFormat where
  | text
  | tree
  | json
deriving DecidableEq, Repr

/-- The format of a given name, in letters of either case; plain text if the name is unknown. No
letter outside ASCII has one of the letters of the names as its small letter, so mapping the ASCII
letters is enough. -/
def LogFormat.named (name : String) : LogFormat :=
  match name.toLower with
  | "tree" => .tree
  | "json" => .json
  | _ => .text

end PonyLens
