import PonyLens.CommandLine.Usage
import PonyLens.Dump.Printer
import PonyLens.Editor.Completion
import PonyLens.Editor.Hover
import PonyLens.Program

/-!
# Answers of the command line

A command is answered with the dump of the tree, or with the JSON text of a record.
-/

namespace PonyLens.CommandLine

inductive RunError where
  /-- No dump is named. -/
  | noInput
  | missingFile (path : String)
  | unreadable (path reason : String)
  | invalidDump (error : Dump.ReadError)
  | unknownType (name : String)
  /-- The definition of the type does not start with its name. -/
  | unnamedType (name : String)
deriving DecidableEq, Repr

def RunError.message : RunError → String
  | noInput => "no input: pass --path <dump> or --stdin"
  | missingFile path => s!"failed to read {path}: No such file or directory (os error 2)"
  | unreadable path reason => s!"failed to read {path}: {reason}"
  | invalidDump e => s!"failed to parse AST dump: {e.message}"
  | unknownType name => s!"no type named `{name}`"
  | unnamedType name => s!"`{name}` is not a named type"

inductive Input where
  | stdin
  | file (path : String)
deriving DecidableEq, Repr

/-- The standard input goes before a file. -/
def Invocation.input (i : Invocation) : Except RunError Input :=
  match i.stdin, i.path with
  | true, _ => .ok .stdin
  | false, some path => .ok (.file path)
  | false, none => .error .noInput

def Invocation.options (i : Invocation) : Options := { blockValue := i.blockValue }

/-- The first definition of a type of this name, in the file if one is asked for. -/
def findType? (p : Program) (name : String) (file : Option String) : Link :=
  (p.arena.descendants p.root).find? fun n =>
    p.arena.isA (some n) Kind.isTypeDefinition && p.arena.name? (some n) == some name &&
      p.arena.isInFile (some n) file

/-- The answer to a question about an empty cache, as JSON text. -/
def jsonAnswer {α : Type} (f : α → Json) (answer : CacheM α) : String :=
  (f (answer.run Cache.empty).1).pretty

def memberRecords (env : Env) (t : NominalType) : CacheM (List MemberInfo) := do
  (← env.members t).mapM env.memberInfo

def Invocation.answer (i : Invocation) (p : Program) : Except RunError String :=
  let env := p.env i.options
  let query (caret : Caret) : CaretQuery := ⟨p.root, caret, i.file⟩
  match i.command with
  | .dumpAst width => .ok (p.arena.print p.root width)
  | .dumpScope caret => .ok (jsonAnswer Completions.toJson (env.completions (query caret)))
  | .getSymbol caret =>
    .ok (jsonAnswer (Json.ofOption SymbolInfo.toJson) (env.symbolAt (query caret)))
  | .hover caret => .ok (jsonAnswer (Json.ofOption HoverInfo.toJson) (env.hover (query caret)))
  | .members name =>
    match findType? p name i.file with
    | none => .error (.unknownType name)
    | some definition =>
      match NominalType.ofDefinition? p.arena (some definition) with
      | none => .error (.unnamedType name)
      | some t =>
        .ok (jsonAnswer (fun ms => .list (ms.map MemberInfo.toJson)) (memberRecords env t))

def Invocation.answerDump (i : Invocation) (source : String) : Except RunError String :=
  match Program.ofDump source with
  | .ok p => i.answer p
  | .error e => .error (.invalidDump e)

end PonyLens.CommandLine
