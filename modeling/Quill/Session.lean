import Quill.Eval
import Quill.Text.Quoted
import Quill.Text.Space

/-!
Sessions: lines run one after another in the same world. A line is a program, or
one of a few commands that start with a colon; an empty line asks to leave. A
line that fails leaves what it did before failing.
-/

namespace Quill

/-- What a line that did not fail gives. -/
inductive Reply
  /-- The session is to end. -/
  | quit
  /-- A value worth showing. -/
  | value (v : Value)
  | nothing
  /-- The answer to a command. -/
  | info (text : String)

/-- A program without a value needs no showing. -/
def Reply.ofValue : Value → Reply
  | .nil => .nothing
  | v => .value v

namespace Session

def help : String :=
  "Commands:\n" ++
  "  :help, :h    Show this help\n" ++
  "  :env         List visible variables\n" ++
  "  :quit, :q    Exit the REPL (so does an empty line)"

/-- A variable as the listing shows it. Strings are quoted, so that no value
can be taken for one of another type; which characters the quotes hide is a
parameter. -/
def describeBinding (hidden : Char → Bool) : String × Value → String
  | (name, .str s) => name ++ " = " ++ Text.quoteWith hidden s
  | (name, v) => name ++ " = " ++ v.text

def describeWith (hidden : Char → Bool) (e : Env) : String :=
  match e.bindings with
  | [] => "(no variables)"
  | bs => "\n".intercalate (bs.map (describeBinding hidden))

/-- The listing of the variables that can be seen. -/
def describe (e : Env) : String := describeWith Text.isHidden e

/-- What a trimmed line asks for. -/
inductive Request
  | quit | help | listing
  | program (source : String)
  deriving DecidableEq, Repr

def Request.ofLine (line : String) : Request :=
  let text := Text.trim line
  if text = "" ∨ text = ":quit" ∨ text = ":q" then .quit
  else if text = ":help" ∨ text = ":h" then .help
  else if text = ":env" then .listing
  else .program text

/-- Run one line. -/
def evalLine {H : Type} [HostLike H] (fuel : Nat) (line : String) : Eval H Reply :=
  match Request.ofLine line with
  | .quit => pure .quit
  | .help => pure (.info help)
  | .listing => fun w => .done (.info (describe w.env)) w
  | .program source => do return Reply.ofValue (← run fuel source)

end Session

end Quill
