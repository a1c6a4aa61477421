import Quill.Token

/-!
Programs as trees. A tree keeps the tokens that matter to its meaning, each with
its line, and forgets brackets, separators and the words that introduce
statements. The type is wider than the grammar: statements may stand where
expressions belong and any token may stand as an operator, so every function on
trees says what it does with those as well.
-/

namespace Quill

inductive Tree
  /-- Statements in a block of their own, or a program that is not exactly one
  statement. -/
  | scope (body : List Tree)
  /-- The statement `let name;`. -/
  | declare (name : Token)
  /-- The statement `let name = init;`. -/
  | define (name : Token) (init : Tree)
  | branch (cond body : Tree)
  | loop (cond body : Tree)
  | print (arg : Tree)
  | load (arg : Tree)
  | exec (arg : Tree)
  | assign (name : Token) (value : Tree)
  | binary (op : Token) (left right : Tree)
  | unary (op : Token) (operand : Tree)
  /-- A number, a string, a truth value or a name. -/
  | leaf (token : Token)
  deriving Repr

namespace Tree

/-- What a tree is called in descriptions. -/
def form : Tree → String
  | scope _ => "scope"
  | declare _ | define _ _ => "declaration"
  | branch _ _ => "if"
  | loop _ _ => "while"
  | print _ => "print"
  | load _ => "load"
  | exec _ => "exec"
  | assign _ _ => "assign"
  | binary _ _ _ => "binary"
  | unary _ _ => "unary"
  | leaf _ => "literal"

/-- The line of the leftmost token kept in a tree; a scope looks no further than
its first statement, and an empty one has line `0`. -/
def line : Tree → Nat
  | scope [] => 0
  | scope (t :: _) => t.line
  | declare name | define name _ | assign name _ => name.line
  | branch cond _ | loop cond _ => cond.line
  | print arg | load arg | exec arg => arg.line
  | binary _ left _ => left.line
  | unary op _ => op.line
  | leaf token => token.line

/-- An operator applied to operands. -/
def isOperation : Tree → Bool
  | binary _ _ _ | unary _ _ => true
  | _ => false

def isStatement : Tree → Bool
  | binary _ _ _ | unary _ _ | leaf _ => false
  | _ => true

/-- The token of a tree that is a name and nothing more. -/
def identifier? : Tree → Option Token
  | leaf token => if token.kind = .ident then some token else none
  | _ => none

end Tree

end Quill
