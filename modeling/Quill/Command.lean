import Quill.Command.Usage
import Quill.Directory
import Quill.Session
import Quill.Text.Typed
import Quill.Token.Table
import Quill.Tree.Document

/-!
The commands of the program, as functions from what they are given to what they
print and how they fail. The files come in as a function from paths to texts, so
the same commands work on a directory in memory and on one that is read as the
need arises.
-/

namespace Quill.Command

/-- Why a command did not succeed. -/
inductive Failure
  | misuse (m : Misuse)
  | unreadable (file : String)
  | fault (f : Fault)
  | historyNotSaved (file : String)
  /-- A typed line could not be read. -/
  | unreadableLine
  | outOfFuel
  deriving DecidableEq, Repr

/-- Wrong arguments are told apart from everything that goes wrong later, and a
line that could not be read ends the program the hard way. -/
def Failure.exitCode : Failure → Nat
  | misuse _ => 2
  | unreadableLine => 134
  | _ => 1

def Failure.message : Failure → String
  | misuse m => "error: " ++ m.message
  | unreadable file => "Failed to read input file " ++ file
  | fault f => f.message
  | historyNotSaved file => "Failed to save history to " ++ file
  | unreadableLine => "Failed to read a line"
  | outOfFuel => "Out of fuel"

/-- What a command printed, and why it failed if it did. -/
structure Report where
  printed : String
  failure : Option Failure

def Report.exitCode (r : Report) : Nat :=
  r.failure.elim 0 Failure.exitCode

/-- What a command can see of the place it runs in. -/
structure Setting where
  /-- The text of the file at a path. -/
  read? : String → Option String
  /-- A file can be written at a path. -/
  canWrite : String → Bool
  /-- All that is typed in. -/
  input : String

def Setting.ofDirectory (d : Directory) (input : String) : Setting :=
  ⟨d.read?, d.canWrite, input⟩

def joinLines (lines : List String) : String :=
  String.join (lines.map (· ++ "\n"))

def printedBy (w : World) : String := joinLines w.host.output.toList

/-! ### Programs -/

/-- The text to show for a value, if it is worth showing. -/
def shownValue : Value → List String
  | .nil => []
  | v => [v.text]

/-- Run a program from the start and show its value. -/
def runProgram (fuel : Nat) (s : Setting) (source : String) : Report :=
  match run fuel source (.initial (.ofFiles s.read?)) with
  | .done v w => ⟨printedBy w ++ joinLines (shownValue v), none⟩
  | .fault f w => ⟨printedBy w, some (.fault f)⟩
  | .exhausted => ⟨"", some .outOfFuel⟩

/-- Do something with the text of a file. -/
def withFile (s : Setting) (file : String) (use : String → Report) : Report :=
  match s.read? file with
  | some source => use source
  | none => ⟨"", some (.unreadable file)⟩

def listTokens (source : String) : Report :=
  match lex source with
  | .ok ts => ⟨joinLines (ts.map Token.row), none⟩
  | .error f => ⟨"", some (.fault f)⟩

def showTree (pretty : Bool) (source : String) : Report :=
  match Tree.ofText source with
  | .ok t => ⟨if pretty then t.program else joinLines [t.document.text], none⟩
  | .error f => ⟨"", some (.fault f)⟩

/-! ### Sessions -/

def greeting : List String :=
  [programName ++ " REPL v" ++ programVersion, "Type :help for help, an empty line to exit", ""]

def farewell : String := "Goodbye!"

/-- The text to show for a reply, if there is one. -/
def shownReply : Reply → List String
  | .quit | .nothing => []
  | .value v => [v.text]
  | .info text => [text]

/-- The lines of an input. A line ends at a line feed, which a carriage return
may precede, and what follows the last line feed is a line unless it is empty. -/
def inputLines (input : String) : List String :=
  let pieces := input.splitOn "\n"
  let ended := pieces.dropLast.map fun l =>
    if l.endsWith "\r" then String.ofList l.toList.dropLast else l
  let last := pieces.getLast?.getD ""
  if last = "" then ended else ended ++ [last]

/-- The lines of an input as they were meant, with backspaces taken into
account; `none` is a line that cannot be read. -/
def typedLines (input : String) : List (Option String) :=
  (inputLines input).map Text.Typed.line?

/-- Run lines until one asks to leave or cannot be read. The result is everything
shown, each item to be followed by a line end. A line that fails shows what it
printed before. -/
def converse (fuel : Nat) : List (Option String) → World → List String
  | [], _ => []
  | none :: _, _ => []
  | some line :: rest, w =>
      match Session.evalLine fuel line { w with host := w.host.clearOutput } with
      | .done .quit w => w.host.output.toList
      | .done r w => w.host.output.toList ++ shownReply r ++ converse fuel rest w
      | .fault _ w => w.host.output.toList ++ converse fuel rest w
      | .exhausted => []

/-- The lines that a session comes to: those up to the first that asks to leave
or cannot be read, that one included. -/
def reached : List (Option String) → List (Option String)
  | [] => []
  | none :: _ => [none]
  | some line :: rest =>
      if Session.Request.ofLine line = .quit then [some line] else some line :: reached rest

/-- Blank lines are not worth remembering. -/
def isMemorable (line : String) : Bool := Text.trim line ≠ ""

/-- Hold a session. The lines that are worth it go to the history file, if there
are any. -/
def holdSession (fuel : Nat) (s : Setting) (history : Option String) : Report :=
  let lines := reached (typedLines s.input)
  let shown := greeting ++ converse fuel lines (.initial (.ofFiles s.read?))
  if lines.contains none then ⟨joinLines shown, some .unreadableLine⟩
  else
    match history with
    | some file =>
        if ((lines.filterMap id).filter isMemorable).isEmpty || s.canWrite file then
          ⟨joinLines (shown ++ [farewell]), none⟩
        else ⟨joinLines shown, some (.historyNotSaved file)⟩
    | none => ⟨joinLines (shown ++ [farewell]), none⟩

/-! ### All commands -/

def perform (fuel : Nat) (s : Setting) : Action → Report
  | .run file => withFile s file (runProgram fuel s)
  | .exec code => runProgram fuel s code
  | .repl history => holdSession fuel s history
  | .tokens file => withFile s file listTokens
  | .ast file pretty => withFile s file (showTree pretty)
  | .help topic => ⟨usage topic, none⟩
  | .version => ⟨versionText, none⟩

/-- The program as a function of its arguments and its setting. -/
def execute (fuel : Nat) (s : Setting) (args : List String) : Report :=
  match Action.ofArguments args with
  | .ok action => perform fuel s action
  | .error m => ⟨"", some (.misuse m)⟩

end Quill.Command
