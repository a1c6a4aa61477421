import Quill.Command.Arguments

/-!
What the program says about itself: its version, and how to use it and each of
its commands.
-/

namespace Quill.Command

def programName : String := "scrawl"

def programVersion : String := "0.3.0"

def versionText : String := programName ++ " " ++ programVersion ++ "\n"

/-- What a command does, in a line. -/
def Name.about : Name → String
  | run => "Run a program file"
  | exec => "Run a program given on the command line"
  | repl => "Start the interactive REPL"
  | tokens => "Print the token stream of a file"
  | ast => "Print the AST of a file"
  | help => "Print this message or the help of the given subcommand(s)"

/-- Entries of a list with what they mean, set in two columns. -/
def columns (entries : List (String × String)) : String :=
  let width := entries.foldl (fun w e => max w e.1.length) 0
  String.join (entries.map fun e =>
    "  " ++ e.1 ++ String.ofList (List.replicate (width - e.1.length) ' ') ++ "  " ++ e.2 ++ "\n")

def verboseEntry : String × String := ("-v, --verbose", "Enable verbose output")
def helpEntry : String × String := ("-h, --help", "Print help")
def versionEntry : String × String := ("-V, --version", "Print version")

def programUsage : String :=
  "A small scripting language with load and exec\n\nUsage: " ++ programName ++
    " [OPTIONS] [COMMAND]\n\nCommands:\n" ++
    columns (Name.all.map fun n => (n.text, n.about)) ++
    "\nOptions:\n" ++ columns [verboseEntry, helpEntry, versionEntry]

/-- What the operand of a command is. -/
def Name.operandEntry? : Name → Option (String × String)
  | run | tokens | ast => some ("<FILE>", "Input file")
  | exec => some ("<CODE>", "Program text")
  | repl | help => none

/-- The options that a command has for itself. -/
def Name.optionEntries : Name → List (String × String)
  | ast => [("    --pretty", "Print the tree as program text instead of JSON")]
  | repl => [("    --history <FILE>", "File to load and save line history")]
  | _ => []

def commandUsage (n : Name) : String :=
  let intro := n.about ++ "\n\nUsage: " ++ programName ++ " " ++ n.text
  if n = .help then
    intro ++ " [COMMAND]...\n\nArguments:\n" ++
      columns [("[COMMAND]...", "Print help for the subcommand(s)")]
  else
    let operand := n.operandEntry?.elim "" fun e => " " ++ e.1
    let arguments := n.operandEntry?.elim "" fun e => "Arguments:\n" ++ columns [e] ++ "\n"
    intro ++ " [OPTIONS]" ++ operand ++ "\n\n" ++ arguments ++ "Options:\n" ++
      columns (n.optionEntries ++ [verboseEntry, helpEntry])

def usage : Option Name → String
  | none => programUsage
  | some n => commandUsage n

end Quill.Command
