import PonyLens.CommandLine.Answer

/-!
# The command line
-/

namespace PonyLens.CommandLine

def usage : String :=
  "Usage: ponylens [--path <dump> | --stdin] [--file <module>] [--block-value first|last] <command>

Commands:
  dump-ast [--width <columns>]         print the tree as a dump
  dump-scope --line <n> --pos <n>      say what may be written at a caret
  get-symbol --line <n> --pos <n>      give the definition of the name at a caret
  hover --line <n> --pos <n>           give the type of the expression at a caret
  members --type <name>                list the members of a type"

def UsageError.message : UsageError → String
  | helpAsked | nothingGiven => usage
  | versionAsked => "ponylens 0.1.0"
  | missingCommand => "error: a command is required"
  | unknownCommand => "error: unrecognized command"
  | unknownArgument => "error: unexpected argument"
  | surplusValue => "error: an option without a value was given one"
  | invalidValue => "error: a value is missing or cannot be chosen"
  | repeatedArgument => "error: an option was given twice"
  | malformedValue => "error: a value is not a number in range"
  | missingArgument => "error: the command needs further options"

def readInput : Input → IO (Except RunError String)
  | .stdin => do return .ok (← (← IO.getStdin).readToEnd)
  | .file path => do
    match ← (IO.FS.readFile path).toBaseIO with
    | .ok source => return .ok source
    | .error (.noFileOrDirectory ..) => return .error (.missingFile path)
    | .error e => return .error (.unreadable path (toString e))

def Invocation.execute (i : Invocation) : IO (Except RunError String) := do
  match i.input with
  | .error e => return .error e
  | .ok input =>
    match ← readInput input with
    | .error e => return .error e
    | .ok source => return i.answerDump source

end PonyLens.CommandLine

open PonyLens.CommandLine in
def main (args : List String) : IO UInt32 := do
  match readArguments args with
  | .error .helpAsked => IO.println UsageError.helpAsked.message; return 0
  | .error .versionAsked => IO.println UsageError.versionAsked.message; return 0
  | .error e => IO.eprintln e.message; return 2
  | .ok invocation =>
    match ← invocation.execute with
    | .ok text => IO.println text; return 0
    | .error e => IO.eprintln s!"Error: {e.message}"; return 1
