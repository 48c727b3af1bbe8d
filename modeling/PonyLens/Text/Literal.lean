import PonyLens.Text.Visible

/-!
# Text literals

A text as a literal in which everything can be seen: quotes, backslashes and line breaks are
escaped, and characters that do not show by themselves are given by their code point.
-/

namespace PonyLens.Text.Literal

def encodeChar (c : Char) : List Char :=
  match c with
  | '"' => ['\\', '"']
  | '\\' => ['\\', '\\']
  | '\n' => ['\\', 'n']
  | '\r' => ['\\', 'r']
  | '\t' => ['\\', 't']
  | '\x00' => ['\\', '0']
  | c =>
    if isVisible c then [c]
    else '\\' :: 'u' :: '\x7b' :: Nat.toDigits 16 c.toNat ++ ['\x7d']

def encode (s : String) : String := String.ofList ('"' :: s.toList.flatMap encodeChar ++ ['"'])

end PonyLens.Text.Literal
