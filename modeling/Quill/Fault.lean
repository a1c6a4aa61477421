import Quill.Token
import Quill.Value

/-!
Everything that can go wrong, as causes: a fault records what was met where,
and the words for it are chosen here and nowhere else.
-/

namespace Quill

/-- Why a piece of text is no token. -/
inductive LexReason
  | unrecognized | outOfRange | unterminated
  deriving DecidableEq, Repr

def LexReason.text : LexReason → String
  | unrecognized => "unrecognized character"
  | outOfRange => "integer literal out of range"
  | unterminated => "unterminated string literal"

/-- What would have been right at the place of a parse fault. The last four
describe trees that were put together by hand. -/
inductive Expected
  | kind (k : Kind)
  | expression
  | target
  | finalEof
  | nothingMore
  | binaryOperator | unaryOperator | literal | identifier
  deriving DecidableEq, Repr

/-- Program text is set off from prose by backquotes. -/
def quoted (s : String) : String := "`" ++ s ++ "`"

def Expected.text : Expected → String
  | kind k => quoted k.text
  | expression => "expression"
  | target => "identifier as assignment target"
  | finalEof => quoted Kind.eof.text ++ " at end of stream"
  | nothingMore => "end of input after " ++ quoted Kind.eof.text
  | binaryOperator => "binary operator"
  | unaryOperator => "unary operator"
  | literal => "literal"
  | identifier => "identifier"

/-- A failure of reading or running a program. -/
inductive Fault
  /-- A piece of the text is no token. -/
  | lex (text : String) (reason : LexReason) (line : Nat)
  /-- The text found is not what the grammar allows; `none` is the end of a
  token list that holds no token at all. -/
  | parse (expected : Expected) (found : Option String) (line : Nat)
  | nameNotFound (name : String)
  | fileNotLoaded (path : String)
  | output (reason : String) (line : Nat)
  | typeMismatch (op : Kind) (left right : ValueType) (line : Nat)
  | badOperand (op : Kind) (found : ValueType) (line : Nat)
  | expectedString (statement : Kind) (found : ValueType) (line : Nat)
  | divisionByZero (line : Nat)
  | overflow (op : Kind) (line : Nat)
  deriving DecidableEq, Repr

/-- The part of the work in which a fault arises. -/
inductive Stage
  | lex | parse | runtime
  deriving DecidableEq, Repr

def Stage.name : Stage → String
  | lex => "lex"
  | parse => "parse"
  | runtime => "runtime"

namespace Fault

def stage : Fault → Stage
  | lex .. => .lex
  | parse .. => .parse
  | _ => .runtime

/-- The line a fault names, if it names one. -/
def line? : Fault → Option Nat
  | lex _ _ line | parse _ _ line | output _ line | typeMismatch _ _ _ line
  | badOperand _ _ line | expectedString _ _ line | divisionByZero line
  | overflow _ line => some line
  | nameNotFound _ | fileNotLoaded _ => none

def description : Fault → String
  | lex text reason _ => reason.text ++ ": " ++ quoted text
  | parse expected found _ =>
      "expected " ++ expected.text ++ ", found " ++
        (found.elim "empty token stream" quoted)
  | nameNotFound name => "The name " ++ quoted name ++ " was not found"
  | fileNotLoaded path => "The file " ++ quoted path ++ " could not be loaded"
  | output reason _ => "could not write output: " ++ reason
  | typeMismatch op left right _ =>
      "unsupported operand types for " ++ quoted op.text ++ ": " ++
        left.name ++ " and " ++ right.name
  | badOperand op found _ =>
      "unsupported operand type for unary " ++ quoted op.text ++ ": " ++ found.name
  | expectedString statement found _ =>
      quoted statement.text ++ " expects a string, found " ++ found.name
  | divisionByZero _ => "division by zero"
  | overflow op _ => "integer overflow in " ++ quoted op.text

/-- The message shown for a fault: its line, where it names one, and its
description. -/
def message (f : Fault) : String :=
  match f.line? with
  | some line => "Line " ++ toString line ++ ": " ++ f.description
  | none => f.description

/-- The name of the sort of fault within its stage. -/
def topic : Fault → String
  | lex .. => "invalid_input"
  | parse .. => "unexpected_token"
  | nameNotFound .. => "name_not_found"
  | fileNotLoaded .. => "load_failed"
  | output .. => "output_failed"
  | typeMismatch .. | badOperand .. => "type_mismatch"
  | expectedString .. => "expected_string"
  | divisionByZero .. => "division_by_zero"
  | overflow .. => "overflow"

def code (f : Fault) : String :=
  f.stage.name ++ "::" ++ f.topic

/-- What the author of the program might do about it. -/
def help? : Fault → Option String
  | nameNotFound _ => some "did you mean to declare this variable with `let`?"
  | overflow .. => some "integers are 64-bit; divide with `/` to work with reals instead"
  | _ => none

end Fault

end Quill
