/-!
# JSON values

Answers are records whose fields have an order. A value is written over several lines, two columns
further in on each level; empty lists and records stay on one line.
-/

namespace PonyLens

/-- A JSON value. Numbers are natural numbers. -/
inductive Json where
  | null
  | bool (value : Bool)
  | number (value : Nat)
  | text (value : String)
  | list (items : List Json)
  | record (fields : List (String × Json))
deriving Repr

namespace Json

def hexByte (n : Nat) : List Char := [Nat.digitChar (n / 16 % 16), Nat.digitChar (n % 16)]

/-- How a character is written between quotes: quotes, backslashes and control characters are
escaped, the latter by a letter where there is one. -/
def encodeChar (c : Char) : List Char :=
  match c with
  | '"' => ['\\', '"']
  | '\\' => ['\\', '\\']
  | '\n' => ['\\', 'n']
  | '\r' => ['\\', 'r']
  | '\t' => ['\\', 't']
  | c =>
    if c.toNat = 8 then ['\\', 'b']
    else if c.toNat = 12 then ['\\', 'f']
    else if c.toNat < 32 then '\\' :: 'u' :: '0' :: '0' :: hexByte c.toNat
    else [c]

def quote (s : String) : String := String.ofList ('"' :: s.toList.flatMap encodeChar ++ ['"'])

def newLine (level : Nat) : String := String.ofList ('\n' :: List.replicate (2 * level) ' ')

mutual

def lines (level : Nat) : Json → String
  | null => "null"
  | bool value => if value then "true" else "false"
  | number value => toString value
  | text value => quote value
  | list [] => "[]"
  | list (item :: items) =>
    "[" ++ newLine (level + 1) ++ lines (level + 1) item ++ moreItems (level + 1) items ++
      newLine level ++ "]"
  | record [] => "\x7b\x7d"
  | record ((name, value) :: fields) =>
    "\x7b" ++ newLine (level + 1) ++ quote name ++ ": " ++ lines (level + 1) value ++
      moreFields (level + 1) fields ++ newLine level ++ "\x7d"

def moreItems (level : Nat) : List Json → String
  | [] => ""
  | item :: items => "," ++ newLine level ++ lines level item ++ moreItems level items

def moreFields (level : Nat) : List (String × Json) → String
  | [] => ""
  | (name, value) :: fields =>
    "," ++ newLine level ++ quote name ++ ": " ++ lines level value ++ moreFields level fields

end

def pretty (value : Json) : String := value.lines 0

def ofOption {α : Type} (f : α → Json) : Option α → Json
  | some x => f x
  | none => null

/-- A field that is left out when its text is empty. -/
def textField (name value : String) : List (String × Json) :=
  if value.isEmpty then [] else [(name, text value)]

def optionField {α : Type} (name : String) (f : α → Json) : Option α → List (String × Json)
  | some x => [(name, f x)]
  | none => []

def listField {α : Type} (name : String) (f : α → Json) : List α → List (String × Json)
  | [] => []
  | items => [(name, list (items.map f))]

end Json

end PonyLens
