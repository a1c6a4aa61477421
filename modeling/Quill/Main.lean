import Quill.Command

/-!
The program on a real terminal and file system. Commands are pure, so a file is
read from disk only when a command stopped for want of it, and the command is
then taken up again from the start with the file at hand; nothing is printed
before a run has all it needs.
-/

namespace Quill.Main

open Command

/-- More steps than can be taken. -/
def fuel : Nat := Nat.pow 2 62

/-- The texts of the files asked for so far; `none` is a file without text. -/
abbrev Cache := List (String × Option String)

def Cache.read? (c : Cache) (path : String) : Option String :=
  (c.lookup path).join

def readText? (path : String) : IO (Option String) := do
  try
    return String.fromUTF8? (← IO.FS.readBinFile path)
  catch _ =>
    return none

/-- The file that a command stopped for. -/
def missing? : Failure → Option String
  | .unreadable file | .fault (.fileNotLoaded file) => some file
  | _ => none

partial def performOn (cache : Cache) (action : Action) : IO Report := do
  let report := perform fuel ⟨cache.read?, fun _ => false, ""⟩ action
  match report.failure.bind missing? with
  | some file =>
      if (cache.lookup file).isSome then return report
      else performOn ((file, ← readText? file) :: cache) action
  | none => return report

/-- Run a line, reading files as it asks for them. -/
partial def evalLine (cache : Cache) (line : String) (w : World) : IO (Outcome Reply) := do
  match Session.evalLine fuel line { w with host := .ofFiles cache.read? } with
  | .fault (.fileNotLoaded path) after =>
      if (cache.lookup path).isSome then return .fault (.fileNotLoaded path) after
      else evalLine ((path, ← readText? path) :: cache) line w
  | outcome => return outcome

/-- Read and run lines until one asks to leave or the input ends. The result is
the lines to remember, or why no further line could be read. -/
partial def converse (input : IO.FS.Stream) (w : World) (seen : List String) :
    IO (Except Failure (List String)) := do
  let raw ← input.getLine
  if raw.isEmpty then return .ok seen
  let some line := (typedLines raw).headD none | return .error .unreadableLine
  let seen := if isMemorable line then seen ++ [line] else seen
  match ← evalLine [] line w with
  | .done .quit after =>
      IO.print (printedBy after)
      return .ok seen
  | .done r after =>
      IO.print (printedBy after ++ joinLines (shownReply r))
      converse input after seen
  | .fault f after =>
      IO.print (printedBy after)
      IO.eprintln f.message
      converse input after seen
  | .exhausted => return .error .outOfFuel

def remember (file : String) (lines : List String) : IO (Option Failure) := do
  if lines.isEmpty then return none
  try
    let handle ← IO.FS.Handle.mk file .append
    handle.putStr (joinLines lines)
    return none
  catch _ =>
    return some (.historyNotSaved file)

def holdSession (history : Option String) : IO Report := do
  IO.print (joinLines greeting)
  match ← Main.converse (← IO.getStdin) (.initial (.ofFiles fun _ => none)) [] with
  | .error failure => return ⟨"", some failure⟩
  | .ok lines =>
      let failure ← match history with
        | some file => remember file lines
        | none => pure none
      return ⟨if failure.isNone then joinLines [farewell] else "", failure⟩

def dispatch (args : List String) : IO Report :=
  match Action.ofArguments args with
  | .ok (.repl history) => Main.holdSession history
  | .ok action => performOn [] action
  | .error m => return ⟨"", some (.misuse m)⟩

end Quill.Main

def main (args : List String) : IO UInt32 := do
  let report ← Quill.Main.dispatch args
  IO.print report.printed
  if let some failure := report.failure then
    IO.eprintln failure.message
  return report.exitCode.toUInt32
