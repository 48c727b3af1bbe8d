import PonyLens.Dump.Printer
import PonyLens.Dump.Reader
import PonyLens.Proofs.Dump.Shape
import PonyLens.Proofs.Dump.Words

/-!
# The tokens of a printed tree

The printer writes characters, the reader takes tokens. Between the two stand the tokens that a
printed tree consists of. Some trees are printed in tokens that mean another tree: the printer does
not quote the names of identifiers, leaves out texts, and writes leaves that are read as the text of
the node around them. The trees to which this does not happen are the printable ones.
-/

namespace PonyLens

namespace Kind

/-- How a dump writes the text of a node of the kind. -/
inductive Form : Kind → Prop
  | name : Form .ident
  | string : Form .stringLit
  | number {kind : Kind} (h : kind = .intLit ∨ kind = .floatLit) : Form kind
  | file {kind : Kind} (h : kind = .package ∨ kind = .sourceModule) : Form kind
  | other : Form .other
  | plain {kind : Kind} (h : kind.carriesText = false) : Form kind

theorem form (kind : Kind) : kind.Form := by
  cases kind
  case ident => exact .name
  case stringLit => exact .string
  case intLit => exact .number (.inl rfl)
  case floatLit => exact .number (.inr rfl)
  case package => exact .file (.inl rfl)
  case sourceModule => exact .file (.inr rfl)
  case other => exact .other
  all_goals exact .plain rfl

end Kind

open Dump

namespace Tree

def headTokens (kind : Kind) (text : String) : List Token :=
  match kind with
  | .other => [.word (if text = "" then kind.token else text)]
  | .ident => [.word kind.token, .word text]
  | .package | .sourceModule =>
    if text = "" then [.word kind.token] else [.word kind.token, .quoted text]
  | _ => [.word kind.token]

def leafTokens (kind : Kind) (text : String) : List Token :=
  match kind with
  | .stringLit => [.quoted text]
  | .intLit | .floatLit => [.word text]
  | .other => headTokens kind text
  | _ => if kind.isBare then [.word kind.token] else .opening :: headTokens kind text ++ [.closing]

mutual

def spell : Tree → List Token
  | .node kind text [] => leafTokens kind text
  | .node kind text (child :: children) =>
    .opening :: headTokens kind text ++ spellAll (child :: children) ++ [.closing]

def spellAll : List Tree → List Token
  | [] => []
  | t :: ts => spell t ++ spellAll ts

end

/-- The text that a node gets when its first child is a leaf that can be read as one. -/
def taken? (kind : Kind) (text : String) (child : Tree) : Option String :=
  if Reader.mayHaveText kind && text.isEmpty then
    match child.spell with
    | [x] => Reader.textOf? kind x
    | _ => none
  else none

/-- Whether the printer leaves out no text of the node, and writes the others so that the reader
takes them whole. -/
def Legible : Tree → Prop
  | .node kind text children =>
    match kind with
    | .ident => IsWord text
    | .stringLit => children = [] ∨ text = ""
    | .intLit | .floatLit =>
      if children = [] then IsWord text ∧ unplaced text = text ∧ numberKind? text = some kind
      else text = ""
    | .package | .sourceModule => True
    | .other =>
      children = [] ∧ text = "" ∨
        IsWord text ∧ unplaced text = text ∧ (Kind.ofWord? text).getD .other = .other
    | _ =>
      text = "" ∧
        (kind.isTypeDefinition = true → children.head?.any (·.kind == .ident) = true)

/-- Whether the node of a tree is read back from its tokens, provided that its children are. -/
structure ReadsBack (t : Tree) : Prop where
  legible : t.Legible
  /-- The first child is not read as the text of the node. -/
  not_taken : ∀ child ∈ t.children.head?, taken? t.kind t.text child = none
  /-- The word of an unknown token is not read as another leaf. -/
  not_mistaken : t.kind = .other → t.children = [] →
    numberKind? t.text = none ∧ Kind.ofWord? t.text = none

section Number

variable {kind : Kind} {text : String} (h : kind = .intLit ∨ kind = .floatLit)
include h

theorem head_number : head kind text = kind.token := by
  rcases h with rfl | rfl <;> rfl

theorem headTokens_number : headTokens kind text = [.word kind.token] := by
  rcases h with rfl | rfl <;> rfl

theorem leaf_number : leaf kind text = text := by
  rcases h with rfl | rfl <;> rfl

theorem leafTokens_number : leafTokens kind text = [.word text] := by
  rcases h with rfl | rfl <;> rfl

theorem mayHaveText_number : Reader.mayHaveText kind = true := by
  rcases h with rfl | rfl <;> rfl

theorem legible_number {children : List Tree} : Legible (.node kind text children) ↔
    if children = [] then IsWord text ∧ unplaced text = text ∧ numberKind? text = some kind
    else text = "" := by
  rcases h with rfl | rfl <;> rfl

end Number

section File

variable {kind : Kind} {text : String} (h : kind = .package ∨ kind = .sourceModule)
include h

theorem head_file : head kind text =
    if text.isEmpty then kind.token else kind.token ++ " " ++ Text.Quoted.encode text := by
  rcases h with rfl | rfl <;> rfl

theorem headTokens_file : headTokens kind text =
    if text = "" then [.word kind.token] else [.word kind.token, .quoted text] := by
  rcases h with rfl | rfl <;> rfl

theorem leaf_file : leaf kind text = "(" ++ head kind text ++ ")" := by
  rcases h with rfl | rfl <;> rfl

theorem leafTokens_file :
    leafTokens kind text = .opening :: headTokens kind text ++ [.closing] := by
  rcases h with rfl | rfl <;> rfl

theorem mayHaveText_file : Reader.mayHaveText kind = true := by
  rcases h with rfl | rfl <;> rfl

theorem legible_file {children : List Tree} : Legible (.node kind text children) := by
  rcases h with rfl | rfl <;> trivial

end File

section Plain

variable {kind : Kind} {text : String} (h : kind.carriesText = false)
include h

theorem head_plain : head kind text = kind.token := by
  cases kind <;> first | rfl | cases h

theorem headTokens_plain : headTokens kind text = [.word kind.token] := by
  cases kind <;> first | rfl | cases h

theorem mayHaveText_plain : Reader.mayHaveText kind = false := by
  cases kind <;> first | rfl | cases h

theorem legible_plain {children : List Tree} : Legible (.node kind text children) ↔
    text = "" ∧
      (kind.isTypeDefinition = true → children.head?.any (·.kind == .ident) = true) := by
  cases kind <;> first | exact Iff.rfl | cases h

theorem leaf_plain :
    leaf kind text = if kind.isBare then kind.token else "(" ++ head kind text ++ ")" := by
  cases kind <;> first | rfl | cases h

theorem leafTokens_plain : leafTokens kind text =
    if kind.isBare then [.word kind.token]
    else .opening :: headTokens kind text ++ [.closing] := by
  cases kind <;> first | rfl | cases h

end Plain

structure Printable (t : Tree) : Prop where
  height_le : t.height ≤ Limits.dumpDepth
  readsBack : t.Everywhere ReadsBack

end Tree

end PonyLens
