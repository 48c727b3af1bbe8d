/-!
# Quoted texts

A text in a dump stands between double quotes. A backslash keeps a quote or another backslash from
being read as such, and `\n` and `\t` stand for a line break and a tab.
-/

namespace PonyLens.Text.Quoted

def encodeChar (c : Char) : List Char :=
  match c with
  | '"' => ['\\', '"']
  | '\\' => ['\\', '\\']
  | '\n' => ['\\', 'n']
  | '\t' => ['\\', 't']
  | c => [c]

def decodeEscaped (c : Char) : Char :=
  match c with
  | 'n' => '\n'
  | 't' => '\t'
  | c => c

def encode (s : String) : String :=
  String.ofList ('"' :: s.toList.flatMap encodeChar ++ ['"'])

end PonyLens.Text.Quoted
