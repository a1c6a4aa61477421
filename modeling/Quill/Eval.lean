import Quill.Env
import Quill.Host
import Quill.Operator
import Quill.Tree.Parser

/-!
Evaluation. A tree is evaluated in a world, which has the variables and the
host, and a fault leaves the world as it was when the fault arose, so what was
printed or assigned before stays. Loaded files and executed strings are programs
of their own that run in the same world.

Programs need not end, so evaluation takes fuel: it counts down along every path
into the tree and along every round of a loop. Running out of fuel is an outcome
apart from all others, and an evaluation that ends does so with any larger
amount of fuel, and in the same way.
-/

namespace Quill

/-- The variables and the host, which is one in memory unless another is named. -/
structure World (H : Type := Host) where
  env : Env
  host : H

/-- How an evaluation ends. -/
inductive Outcome (α : Type) (H : Type := Host)
  | done (a : α) (w : World H)
  | fault (f : Fault) (w : World H)
  | exhausted

/-- A computation that may change the world and may fail. -/
def Eval (H α : Type) := World H → Outcome α H

variable {H : Type}

/-- The world in which a program starts. -/
def World.initial (host : H) : World H := ⟨.initial, host⟩

namespace Eval

@[always_inline]
instance : Monad (Eval H) where
  pure a := fun w => .done a w
  bind x f := fun w =>
    match x w with
    | .done a w => f a w
    | .fault e w => .fault e w
    | .exhausted => .exhausted

@[always_inline, inline]
def fail {α : Type} (f : Fault) : Eval H α := fun w => .fault f w

def outOfFuel {α : Type} : Eval H α := fun _ => .exhausted

@[always_inline, inline]
def ofExcept {α : Type} : Except Fault α → Eval H α
  | .ok a => pure a
  | .error f => fail f

/-! ### Variables and the host -/

def declare (name : String) : Eval H Unit := fun w =>
  .done () { w with env := w.env.declare name }

def read (name : String) : Eval H Value := fun w =>
  match w.env.read? name with
  | some v => .done v w
  | none => .fault (.nameNotFound name) w

def write (name : String) (value : Value) : Eval H Unit := fun w =>
  match w.env.write? name value with
  | some env => .done () { w with env }
  | none => .fault (.nameNotFound name) w

/-- Run in a frame of its own, which is dropped also when the run fails. -/
def inFrame (x : Eval H Unit) : Eval H Unit := fun w =>
  match x { w with env := w.env.push } with
  | .done () w => .done () { w with env := w.env.pop }
  | .fault f w => .fault f { w with env := w.env.pop }
  | .exhausted => .exhausted

/-- Print a line; the line number is that of the statement. -/
def print [HostLike H] (text : String) (line : Nat) : Eval H Unit := fun w =>
  match HostLike.print w.host text with
  | (.ok (), host) => .done () { w with host }
  | (.error reason, host) => .fault (.output reason line) { w with host }

def loadFile [HostLike H] (path : String) : Eval H String := fun w =>
  match HostLike.load w.host path with
  | (some source, host) => .done source { w with host }
  | (none, host) => .fault (.fileNotLoaded path) { w with host }

/-! ### Trees -/

/-- The fault of a token that cannot play its part in a tree. -/
def malformed (e : Expected) (t : Token) : Fault :=
  .parse e (some t.text) t.line

def identifier (t : Token) : Eval H String :=
  match t.name? with
  | some name => pure name
  | none => fail (malformed .identifier t)

/-- The value of a leaf. The two truth values need no payload and mind none. -/
def leaf (t : Token) : Eval H Value :=
  match t.kind, t.value with
  | .int, some (.int n) => pure (.int n)
  | .string, some (.str s) => pure (.str s)
  | .kwTrue, _ => pure (.bool true)
  | .kwFalse, _ => pure (.bool false)
  | .ident, _ => do read (← identifier t)
  | _, _ => fail (malformed .literal t)

/-- Operators are looked up once their operands have values. -/
def binary (op : Token) (a b : Value) : Eval H Value :=
  match BinaryOp.ofKind? op.kind with
  | some o => ofExcept (o.apply a b op.line)
  | none => fail (malformed .binaryOperator op)

def unary (op : Token) (a : Value) : Eval H Value :=
  match UnaryOp.ofKind? op.kind with
  | some o => ofExcept (o.apply a op.line)
  | none => fail (malformed .unaryOperator op)

/-- The text that a statement works on, given its value. -/
def string (statement : Kind) (arg : Tree) : Value → Eval H String
  | .str s => pure s
  | v => fail (.expectedString statement v.type arg.line)

/-- Statements one after the other, up to the first that fails. -/
def sequence (step : Tree → Eval H Value) : List Tree → Eval H Unit
  | [] => pure ()
  | t :: ts => do
      let _ ← step t
      sequence step ts

/-- Read a text as a program and go on with its tree. -/
def interpret (step : Tree → Eval H Value) (source : String) : Eval H Value := do
  step (← ofExcept (Tree.ofText source))

end Eval

open Eval in
/-- The value of a tree. Statements have the value `nil`, except that `load` and
`exec` have that of the program they run. -/
def eval [HostLike H] : Nat → Tree → Eval H Value
  | 0, _ => outOfFuel
  | n + 1, .scope body => do
      inFrame (sequence (eval n) body)
      return .nil
  | _ + 1, .declare name => do
      declare (← identifier name)
      return .nil
  | n + 1, .define name init => do
      let x ← identifier name
      declare x
      write x (← eval n init)
      return .nil
  | n + 1, .branch cond body => do
      if (← eval n cond).isTruthy then
        let _ ← eval n body
        return .nil
      else
        return .nil
  | n + 1, .loop cond body => do
      if (← eval n cond).isTruthy then
        let _ ← eval n body
        eval n (.loop cond body)
      else
        return .nil
  | n + 1, .print arg => do
      print (← eval n arg).text arg.line
      return .nil
  | n + 1, .load arg => do
      let path ← string .kwLoad arg (← eval n arg)
      interpret (eval n) (← loadFile path)
  | n + 1, .exec arg => do
      interpret (eval n) (← string .kwExec arg (← eval n arg))
  | n + 1, .assign name value => do
      let v ← eval n value
      write (← identifier name) v
      return .nil
  | n + 1, .binary op left right => do
      let a ← eval n left
      let b ← eval n right
      binary op a b
  | n + 1, .unary op operand => do
      unary op (← eval n operand)
  | _ + 1, .leaf token => leaf token

/-- Run a program text. -/
def run [HostLike H] (fuel : Nat) (source : String) : Eval H Value :=
  Eval.interpret (eval fuel) source

end Quill
