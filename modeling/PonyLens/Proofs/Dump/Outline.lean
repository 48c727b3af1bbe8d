import PonyLens.Arena.Tree
import PonyLens.Dump.Reader
import PonyLens.Proofs.Dump.Words

/-!
# Reading trees without an arena

The reader with the trees it reads in place of nodes in an arena: it keeps the finished children of
every open node, knows no places and does not say why it refuses a token. What the reader puts into
an arena is what this one gives, whatever has been in the arena before.
-/

namespace PonyLens.Dump

structure Frame where
  kind : Kind
  text : String
  children : List Tree := []

inductive Outline.Expecting where
  | root
  | kind
  | name
  | text (kind : Kind)
  | child
  | nothing (root : Tree)

/-- The open nodes, innermost first, and what is to follow. -/
structure Outline where
  frames : List Frame := []
  expecting : Outline.Expecting := .root

namespace Outline

def complete (o : Outline) (t : Tree) : Outline :=
  match o.frames with
  | [] => { o with expecting := .nothing t }
  | f :: frames => ⟨{ f with children := f.children ++ [t] } :: frames, .child⟩

def leaf (o : Outline) (kind : Kind) (text : String) : Outline := o.complete (.node kind text [])

def beginNode (o : Outline) (kind : Kind) (text : String) : Outline :=
  ⟨{ kind, text } :: o.frames, .child⟩

def close (o : Outline) : Option Outline :=
  match o.frames with
  | [] => none
  | f :: frames =>
    if f.kind.isTypeDefinition && !f.children.head?.any (·.kind == .ident) then none
    else some ({ o with frames }.complete (.node f.kind f.text f.children))

def bareWord (o : Outline) (word : String) : Option Outline :=
  match numberKind? (unplaced word) with
  | some kind => some (o.leaf kind (unplaced word))
  | none =>
    match Kind.ofWord? (unplaced word) with
    | some kind =>
      if kind == .ident || kind.isTypeDefinition then none else some (o.leaf kind "")
    | none => some (o.leaf .other (unplaced word))

def start (o : Outline) (x : Token) : Option Outline :=
  if Limits.dumpDepth ≤ o.frames.length then none
  else match x with
    | .opening => some { o with expecting := .kind }
    | .closing => none
    | .word w => o.bareWord w
    | .quoted s => some (o.leaf .stringLit s)

def childOrClose (o : Outline) (x : Token) : Option Outline :=
  match x with
  | .closing => o.close
  | _ => o.start x

def kindOf (word : String) : Kind := (Kind.ofWord? (unplaced word)).getD .other

def kindWord (o : Outline) (word : String) : Outline :=
  if kindOf word = .ident then { o with expecting := .name }
  else if kindOf word = .other then o.beginNode .other (unplaced word)
  else if Reader.mayHaveText (kindOf word) then { o with expecting := .text (kindOf word) }
  else o.beginNode (kindOf word) ""

def feed (o : Outline) (x : Token) : Option Outline :=
  match o.expecting with
  | .root => o.start x
  | .child => o.childOrClose x
  | .nothing _ => none
  | .kind =>
    match x with
    | .word w => some (o.kindWord w)
    | _ => none
  | .name =>
    match x with
    | .word s | .quoted s => some (o.beginNode .ident s)
    | _ => none
  | .text kind =>
    match Reader.textOf? kind x with
    | some s => some (o.beginNode kind s)
    | none => (o.beginNode kind "").childOrClose x

def feedAll (o : Outline) (xs : List Token) : Option Outline := xs.foldlM feed o

def tree? (o : Outline) : Option Tree :=
  match o.expecting with
  | .nothing t => some t
  | _ => none

end Outline

def outline? (xs : List Token) : Option Tree := (Outline.feedAll {} xs).bind Outline.tree?

def treeOf? (source : String) : Option Tree :=
  match (scan source).2 with
  | .complete _ => outline? ((scan source).1.map Lexeme.token)
  | .unterminated _ => none

end PonyLens.Dump
