import PonyLens.Limits
import PonyLens.Location
import PonyLens.Text.Decimal
import PonyLens.Types.Options

/-!
# Arguments

An invocation consists of options of the program, a command, and options of the command. Some
options may stand on either side of the command. The value of an option follows it as the next word
or after an equals sign. A word that follows is taken as the value without being looked at; it is
checked when the next option comes or at the end, so an earlier mistake may be reported later. Of
the options before the command, the last one is checked after the command and its options.
-/

namespace PonyLens.CommandLine

inductive Command where
  /-- Print the tree as a dump. -/
  | dumpAst (width : Nat)
  /-- Say what may be written at a caret. -/
  | dumpScope (caret : Caret)
  /-- Give the definition of the name at a caret. -/
  | getSymbol (caret : Caret)
  /-- Give the type of the expression at a caret. -/
  | hover (caret : Caret)
  /-- List the members of a type. -/
  | members (typeName : String)
deriving DecidableEq, Repr

structure Invocation where
  path : Option String
  stdin : Bool
  file : Option String
  blockValue : BlockValue
  command : Command
deriving DecidableEq, Repr

inductive UsageError where
  | helpAsked
  | versionAsked
  /-- Neither an option nor a command is given. -/
  | nothingGiven
  | missingCommand
  | unknownCommand
  | unknownArgument
  /-- A value is given to an option that takes none. -/
  | surplusValue
  /-- A value is missing, empty, or none of those that may be chosen. -/
  | invalidValue
  | repeatedArgument
  /-- A value is not a number, or out of range. -/
  | malformedValue
  /-- An option that the command needs is missing. -/
  | missingArgument
deriving DecidableEq, Repr

inductive CommandName where
  | dumpAst
  | dumpScope
  | getSymbol
  | hover
  | members
deriving DecidableEq, Repr

def CommandName.named? : String → Option CommandName
  | "dump-ast" => some .dumpAst
  | "dump-scope" => some .dumpScope
  | "get-symbol" => some .getSymbol
  | "hover" => some .hover
  | "members" => some .members
  | _ => none

inductive Key where
  | path
  | file
  | blockValue
  | width
  | line
  | pos
  | typeName
deriving DecidableEq, Repr

inductive Switch where
  | value (key : Key)
  | stdin
  | help
  | version
deriving DecidableEq, Repr

/-- The options that may stand before the command, or after a command, by name. -/
def switch? (command : Option CommandName) (name : String) : Option Switch :=
  match command, name with
  | _, "file" => some (.value .file)
  | _, "block-value" => some (.value .blockValue)
  | _, "help" => some .help
  | none, "version" => some .version
  | none, "path" => some (.value .path)
  | none, "stdin" => some .stdin
  | some .dumpAst, "width" => some (.value .width)
  | some .dumpScope, "line" | some .getSymbol, "line" | some .hover, "line" => some (.value .line)
  | some .dumpScope, "pos" | some .getSymbol, "pos" | some .hover, "pos" => some (.value .pos)
  | some .members, "type" => some (.value .typeName)
  | _, _ => none

structure Given where
  path : Option String := none
  stdin : Bool := false
  file : Option String := none
  blockValue : Option BlockValue := none
  width : Option Nat := none
  line : Option Nat := none
  pos : Option Nat := none
  typeName : Option String := none
  /-- The last option, and its value if that has been seen, while it is not checked. -/
  pending : Option (Key × Option String) := none
deriving DecidableEq, Repr

namespace Given

def has (g : Given) : Key → Bool
  | .path => g.path.isSome
  | .file => g.file.isSome
  | .blockValue => g.blockValue.isSome
  | .width => g.width.isSome
  | .line => g.line.isSome
  | .pos => g.pos.isSome
  | .typeName => g.typeName.isSome

def isEmpty (g : Given) : Bool := g == { }

def maxWidth : Nat := 18446744073709551615

def orFail {α : Type} (e : UsageError) : Option α → Except UsageError α
  | some x => .ok x
  | none => .error e

def set (g : Given) (key : Key) (value : String) : Except UsageError Given :=
  let number (limit : Nat) (read : Nat → List Char → Option Nat) :=
    orFail .malformedValue (read limit value.toList)
  match key with
  | .path => if value.isEmpty then .error .invalidValue else .ok { g with path := some value }
  | .file => .ok { g with file := some value }
  | .blockValue =>
    match value with
    | "first" => .ok { g with blockValue := some .first }
    | "last" => .ok { g with blockValue := some .last }
    | _ => .error .invalidValue
  | .width => do return { g with width := some (← number maxWidth Text.Decimal.unsigned?) }
  | .line => do return { g with line := some (← number Word.max Text.Decimal.natural?) }
  | .pos => do return { g with pos := some (← number Word.max Text.Decimal.natural?) }
  | .typeName => .ok { g with typeName := some value }

/-- Checks the last option: it needs a value, must not be given twice, and the value must fit. -/
def settle (g : Given) : Except UsageError Given :=
  match g.pending with
  | none => .ok g
  | some (_, none) => .error .invalidValue
  | some (key, some value) =>
    let g := { g with pending := none }
    if g.has key then .error .repeatedArgument else g.set key value

def awaitsValue (g : Given) : Bool := g.pending.any fun (_, value) => value.isNone

def takeValue (g : Given) (value : String) : Given :=
  { g with pending := g.pending.map fun (key, _) => (key, some value) }

/-- Takes an option, with the value after its equals sign. A value so given is checked at once. -/
def takeSwitch (g : Given) (s : Switch) (attached : Option String) : Except UsageError Given :=
  match s, attached with
  | .value key, none => do return { ← g.settle with pending := some (key, none) }
  | .value key, some value => do
    let g ← g.settle
    { g with pending := some (key, some value) }.settle
  | _, some _ => .error .surplusValue
  | .help, none => do let _ ← g.settle; throw .helpAsked
  | .version, none => do let _ ← g.settle; throw .versionAsked
  | .stdin, none => do
    let g ← g.settle
    if g.stdin then throw .repeatedArgument else return { g with stdin := true }

end Given

inductive Shape where
  /-- Two dashes: no option comes after them. -/
  | separator
  | long (name : String) (attached : Option String)
  | short (letter : Char)
  | plain
deriving DecidableEq, Repr

/-- The form that a word has by its dashes. A single dash is a plain word. -/
def shape (word : String) : Shape :=
  match word.toList with
  | ['-', '-'] => .separator
  | '-' :: '-' :: cs =>
    let name := String.ofList (cs.takeWhile (· != '='))
    match cs.dropWhile (· != '=') with
    | '=' :: value => .long name (some (String.ofList value))
    | _ => .long name none
  | '-' :: c :: _ => .short c
  | _ => .plain

def helpOn (words : List String) : UsageError :=
  match words with
  | [] => .helpAsked
  | [word] =>
    if word == "help" || (CommandName.named? word).isSome then .helpAsked else .unknownCommand
  | _ => .unknownCommand

def misplaced (command : Option CommandName) (separated : Bool) (word : String) : UsageError :=
  match command with
  | some _ => .unknownArgument
  | none =>
    if separated && (word == "help" || (CommandName.named? word).isSome) then .unknownArgument
    else .unknownCommand

/-- Takes the words on one side of the command. Before the command, it stops at the command and
gives it with the words that follow. -/
def takeWords (command : Option CommandName) (separated : Bool) (g : Given) :
    List String → Except UsageError (Given × Option (CommandName × List String))
  | [] => .ok (g, none)
  | word :: rest =>
    if separated then .error (misplaced command separated word)
    else if command.isNone && !g.awaitsValue && word == "help" then .error (helpOn rest)
    else
      match if command.isNone && !g.awaitsValue then CommandName.named? word else none with
      | some name => .ok (g, some (name, rest))
      | none =>
        match shape word with
        | .separator => takeWords command true g rest
        | .long name attached =>
          match switch? command name with
          | some s => do takeWords command false (← g.takeSwitch s attached) rest
          | none => .error .unknownArgument
        | .short 'h' => do takeWords command false (← g.takeSwitch .help none) rest
        | .short c =>
          if c == 'V' && command.isNone then do
            takeWords command false (← g.takeSwitch .version none) rest
          else .error .unknownArgument
        | .plain =>
          if g.awaitsValue then takeWords command false (g.takeValue word) rest
          else .error (misplaced command separated word)

def Given.command (g : Given) (name : CommandName) : Except UsageError Command :=
  let caret : Except UsageError Caret := do
    return ⟨← orFail .missingArgument g.line, ← orFail .missingArgument g.pos⟩
  match name with
  | .dumpAst => .ok (.dumpAst (g.width.getD Limits.dumpWidth))
  | .dumpScope => .dumpScope <$> caret
  | .getSymbol => .getSymbol <$> caret
  | .hover => .hover <$> caret
  | .members => .members <$> orFail .missingArgument g.typeName

/-- Reads the arguments of the program. An option that is given on both sides of the command has the
value from behind the command. -/
def readArguments (args : List String) : Except UsageError Invocation := do
  match ← takeWords none false {} args with
  | (before, none) =>
    if (← before.settle).isEmpty then throw .nothingGiven else throw .missingCommand
  | (before, some (name, rest)) =>
    let after ← (← takeWords (some name) false {} rest).1.settle
    let command ← after.command name
    let before ← before.settle
    return {
      path := before.path
      stdin := before.stdin
      file := after.file.or before.file
      blockValue := (after.blockValue.or before.blockValue).getD .first
      command }

end PonyLens.CommandLine
