import PonyLens.Arena.Basic
import PonyLens.Limits

/-!
# Why a dump is refused
-/

namespace PonyLens.Dump

/-- Why a text is no dump, and the place that shows it. -/
inductive ReadError where
  | unexpectedEnd (location : Location)
  | unexpectedClose (location : Location)
  | missingKind (location : Location)
  | unterminatedText (location : Location)
  | missingName (location : Location)
  | tooDeep (location : Location)
  | trailingInput (location : Location)
  /-- A finished node could not become a child. -/
  | attach (error : AttachError)
deriving DecidableEq, Repr

namespace ReadError

def complaint (l : Location) (text : String) : String := s!"{l.line}:{l.column}: {text}"

def message : ReadError → String
  | unexpectedEnd l => complaint l "unexpected end of input"
  | unexpectedClose l => complaint l "unexpected `)`"
  | missingKind l => complaint l "expected a node kind after `(`"
  | unterminatedText l => complaint l "unterminated string literal"
  | missingName l => complaint l "missing `(id ...)` name"
  | tooDeep l => complaint l s!"nesting deeper than {Limits.dumpDepth} levels"
  | trailingInput l => complaint l "trailing input after the root node"
  | attach e => e.message

end ReadError

end PonyLens.Dump
