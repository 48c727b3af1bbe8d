import PonyLens.Location
import PonyLens.Text.Blank
import PonyLens.Text.Quoted

/-!
# Tokens of a dump

A dump consists of parentheses, words and quoted texts. Blanks and comments, which run from a
semicolon to the end of the line, only separate. The scanner takes one character at a time and never
fails: a quoted text that is not closed shows in how the token list ends.
-/

namespace PonyLens.Dump

inductive Token where
  | opening
  | closing
  | word (text : String)
  | quoted (text : String)
deriving DecidableEq, Repr

structure Lexeme where
  token : Token
  location : Location
deriving DecidableEq, Repr

inductive Ending where
  /-- The text is over; the place is the one just past it. -/
  | complete (location : Location)
  /-- A quoted text that starts here is not closed. -/
  | unterminated (start : Location)
deriving DecidableEq, Repr

/-- What the scanner is inside of. Characters collected so far stand in reverse. -/
inductive Scanner.Mode where
  | between
  | comment
  | word (start : Location) (collected : List Char)
  | quoted (start : Location) (collected : List Char)
  /-- Right after a backslash in a quoted text. -/
  | escaped (start : Location) (collected : List Char)
deriving DecidableEq, Repr

/-- A scanner that has read up to `location`. -/
structure Scanner where
  location : Location := .start
  mode : Scanner.Mode := .between
  lexemes : Array Lexeme := #[]
deriving DecidableEq, Repr

namespace Scanner

def endsWord (c : Char) : Bool :=
  Text.isBlank c || c == '(' || c == ')' || c == '"' || c == ';'

def emit (s : Scanner) (token : Token) (start : Location) : Scanner :=
  { s with mode := .between, lexemes := s.lexemes.push ⟨token, start⟩ }

def begin (s : Scanner) (c : Char) : Scanner :=
  if Text.isBlank c then { s with mode := .between }
  else match c with
    | ';' => { s with mode := .comment }
    | '(' => s.emit .opening s.location
    | ')' => s.emit .closing s.location
    | '"' => { s with mode := .quoted s.location [] }
    | c => { s with mode := .word s.location [c] }

def flush (s : Scanner) : Scanner :=
  match s.mode with
  | .word start collected => s.emit (.word (String.ofList collected.reverse)) start
  | _ => s

/-- Takes one character, without moving on. -/
def take (s : Scanner) (c : Char) : Scanner :=
  match s.mode with
  | .between => s.begin c
  | .comment => if c = '\n' then { s with mode := .between } else s
  | .word start collected =>
    if endsWord c then s.flush.begin c else { s with mode := .word start (c :: collected) }
  | .quoted start collected =>
    match c with
    | '"' => s.emit (.quoted (String.ofList collected.reverse)) start
    | '\\' => { s with mode := .escaped start collected }
    | c => { s with mode := .quoted start (c :: collected) }
  | .escaped start collected =>
    { s with mode := .quoted start (Text.Quoted.decodeEscaped c :: collected) }

/-- Takes one character and moves past it. -/
def feed (s : Scanner) (c : Char) : Scanner :=
  let s := s.take c
  { s with location := s.location.after c }

def ending (s : Scanner) : Ending :=
  match s.mode with
  | .quoted start _ | .escaped start _ => .unterminated start
  | _ => .complete s.location

end Scanner

def scan (source : String) : List Lexeme × Ending :=
  let s := source.toList.foldl Scanner.feed {}
  (s.flush.lexemes.toList, s.ending)

end PonyLens.Dump
