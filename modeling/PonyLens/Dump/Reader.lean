import PonyLens.Dump.Error
import PonyLens.Dump.Token
import PonyLens.Dump.Word

/-!
# Reading dumps

A node is written `(kind child ...)`. The reader takes one token at a time and keeps the nodes whose
closing parenthesis is still to come. A node is created when its kind and its text are known, before
its children, and becomes a child when it is finished. So nodes are numbered in pre-order, and the
nodes made before an error stay in the arena.
-/

namespace PonyLens.Dump

structure OpenNode where
  node : NodeId
  /-- The place of its opening parenthesis. -/
  opening : Location
deriving DecidableEq, Repr

inductive Reader.Expecting where
  | root
  /-- The kind of the node whose parenthesis stands at `opening`. -/
  | kind (opening : Location)
  /-- The name of an identifier; its kind is the word at `word`. -/
  | name (opening word location : Location)
  /-- Perhaps the text of a node of this kind. -/
  | text (kind : Kind) (opening location : Location)
  /-- A child of the innermost open node, or its closing parenthesis. -/
  | child
  /-- Nothing: the root is finished. -/
  | nothing (root : NodeId)
deriving DecidableEq, Repr

/-- The state between two tokens. -/
structure Reader where
  arena : Arena
  /-- The open nodes, innermost first. -/
  openNodes : List OpenNode := []
  expecting : Reader.Expecting := .root
deriving DecidableEq, Repr

/-- A refusal, and the arena with the nodes made before it. -/
structure Refusal where
  error : ReadError
  arena : Arena
deriving DecidableEq, Repr

namespace Reader

def refuse {α : Type} (r : Reader) (error : ReadError) : Except Refusal α :=
  .error ⟨error, r.arena⟩

/-- Whether a node of the kind may have its text as the next token. -/
def mayHaveText : Kind → Bool
  | .package | .sourceModule | .stringLit | .intLit | .floatLit => true
  | _ => false

/-- The text that a token gives to a node of the kind: a number wants a number, others a quoted
text. -/
def textOf? : Kind → Token → Option String
  | .intLit, .word w | .floatLit, .word w => if (numberKind? w).isSome then some w else none
  | .package, .quoted s | .sourceModule, .quoted s | .stringLit, .quoted s => some s
  | _, _ => none

/-- Makes a finished node a child of the innermost open node, or the root. -/
def complete (r : Reader) (n : NodeId) : Except Refusal Reader :=
  match r.openNodes with
  | [] => .ok { r with expecting := .nothing n }
  | top :: _ =>
    match r.arena.appendChild (some top.node) (some n) with
    | .ok arena => .ok { r with arena, expecting := .child }
    | .error e => r.refuse (.attach e)

def leaf (r : Reader) (kind : Kind) (text : String) (location : Location) :
    Except Refusal Reader :=
  let (n, arena) := r.arena.addNode kind text location
  { r with arena }.complete n

def beginNode (r : Reader) (opening : Location) (kind : Kind) (text : String)
    (location : Location) : Reader :=
  let (n, arena) := r.arena.addNode kind text location
  { arena, openNodes := ⟨n, opening⟩ :: r.openNodes, expecting := .child }

/-- Closes the innermost open node. The first child of a type definition has to be its name. -/
def close (r : Reader) (location : Location) : Except Refusal Reader :=
  match r.openNodes with
  | [] => r.refuse (.unexpectedClose location)
  | top :: openNodes =>
    if r.arena.isA (some top.node) Kind.isTypeDefinition &&
        !r.arena.is (r.arena.child (some top.node) 0) .ident then
      r.refuse (.missingName top.opening)
    else { r with openNodes }.complete top.node

/-- Adds the leaf that a bare word writes. Neither an identifier nor a type definition can do
without a name. -/
def bareWord (r : Reader) (word : String) (place : Location) : Except Refusal Reader :=
  let (word, location) := splitLocation word place
  match numberKind? word with
  | some kind => r.leaf kind word location
  | none =>
    match Kind.ofWord? word with
    | some kind =>
      if kind == .ident || kind.isTypeDefinition then r.refuse (.missingName place)
      else r.leaf kind "" location
    | none => r.leaf .other word location

def start (r : Reader) (x : Lexeme) : Except Refusal Reader :=
  if Limits.dumpDepth ≤ r.openNodes.length then r.refuse (.tooDeep x.location)
  else match x.token with
    | .opening => .ok { r with expecting := .kind x.location }
    | .closing => r.refuse (.unexpectedClose x.location)
    | .word w => r.bareWord w x.location
    | .quoted s => r.leaf .stringLit s x.location

def childOrClose (r : Reader) (x : Lexeme) : Except Refusal Reader :=
  match x.token with
  | .closing => r.close x.location
  | _ => r.start x

/-- Takes the word after an opening parenthesis. A word that names no kind is kept as text. -/
def kindWord (r : Reader) (opening : Location) (word : String) (place : Location) : Reader :=
  let (word, location) := splitLocation word opening
  match (Kind.ofWord? word).getD .other with
  | .ident => { r with expecting := .name opening place location }
  | .other => r.beginNode opening .other word location
  | kind =>
    if mayHaveText kind then { r with expecting := .text kind opening location }
    else r.beginNode opening kind "" location

def feed (r : Reader) (x : Lexeme) : Except Refusal Reader :=
  match r.expecting with
  | .root => r.start x
  | .child => r.childOrClose x
  | .nothing _ => r.refuse (.trailingInput x.location)
  | .kind opening =>
    match x.token with
    | .word w => .ok (r.kindWord opening w x.location)
    | _ => r.refuse (.missingKind opening)
  | .name opening word location =>
    match x.token with
    | .word s | .quoted s => .ok (r.beginNode opening .ident s location)
    | _ => r.refuse (.missingName word)
  | .text kind opening location =>
    match textOf? kind x.token with
    | some s => .ok (r.beginNode opening kind s location)
    | none => (r.beginNode opening kind "" location).childOrClose x

def finish (r : Reader) (ending : Ending) : Except Refusal (NodeId × Arena) :=
  match ending, r.expecting with
  | .unterminated start, _ => r.refuse (.unterminatedText start)
  | .complete _, .nothing root => .ok (root, r.arena)
  | .complete _, .name _ word _ => r.refuse (.missingName word)
  | .complete place, .text kind opening location =>
    (r.beginNode opening kind "" location).refuse (.unexpectedEnd place)
  | .complete place, _ => r.refuse (.unexpectedEnd place)

end Reader

/-- Reads a dump into an arena. The root is given if the text is a dump; the nodes that were made
are in the arena in any case. -/
def read (a : Arena) (source : String) : Except ReadError NodeId × Arena :=
  let (lexemes, ending) := scan source
  match lexemes.foldlM Reader.feed { arena := a } >>= (·.finish ending) with
  | .ok (root, arena) => (.ok root, arena)
  | .error refusal => (.error refusal.error, refusal.arena)

def readNew (source : String) : Except ReadError (NodeId × Arena) :=
  match read .empty source with
  | (.ok root, arena) => .ok (root, arena)
  | (.error e, _) => .error e

end PonyLens.Dump
