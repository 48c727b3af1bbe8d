/-!
# File paths

Paths are compared by their components. Empty components and `.` do not count, except for the slash
and the `.` that a path may start with.
-/

namespace PonyLens.FilePath

/-- The components of a path. A leading slash is a component of its own. -/
def components (path : String) : List String :=
  let parts := path.splitOn "/"
  let lead :=
    if path.startsWith "/" then ["/"]
    else if parts.head? == some "." then ["."]
    else []
  lead ++ parts.filter fun part => !part.isEmpty && part != "."

def endsWith (path ending : String) : Bool :=
  (components ending).isSuffixOf (components path)

/-- Whether one of two paths ends with the other, so that both may mean one file. -/
def agree (p q : String) : Bool := endsWith p q || endsWith q p

end PonyLens.FilePath
