import Quill.Tree

/-!
Trees as program text. Every operation that is an operand is put in parentheses,
so the text shows the shape of the tree without any appeal to precedence, and
each statement stands on lines of its own, indented by the depth of the blocks
around it.
-/

namespace Quill

/-- Where a tree is written: within a line, or as statement lines at a depth of
indentation. -/
inductive Place
  | inline
  | line (depth : Nat)
  deriving DecidableEq, Repr

namespace Place

/-- Statements written within a line still take lines, at depth zero. -/
def depth : Place → Nat
  | inline => 0
  | line d => d

def indent (p : Place) : String :=
  String.ofList (List.replicate (4 * p.depth) ' ')

def writeLine (p : Place) (s : String) : String :=
  p.indent ++ s ++ "\n"

/-- An expression is closed by a semicolon where it is a statement. -/
def writeExpression (p : Place) (s : String) : String :=
  match p with
  | inline => s
  | line _ => p.writeLine (s ++ ";")

end Place

namespace Tree

/-- Operations are put in parentheses as operands. -/
def wrap (t : Tree) (s : String) : String :=
  if t.isOperation then "(" ++ s ++ ")" else s

mutual

def write (p : Place) : Tree → String
  | scope body =>
      p.writeLine Kind.lbrace.text ++ writeAll (p.depth + 1) body ++
        p.writeLine Kind.rbrace.text
  | declare name => p.writeLine ("let " ++ name.text ++ ";")
  | define name init =>
      p.writeLine ("let " ++ name.text ++ " = " ++ write .inline init ++ ";")
  | branch cond body =>
      p.writeLine ("if (" ++ write .inline cond ++ ")") ++ write (.line p.depth) body
  | loop cond body =>
      p.writeLine ("while (" ++ write .inline cond ++ ")") ++ write (.line p.depth) body
  | print arg => p.writeLine ("print " ++ write .inline arg ++ ";")
  | load arg => p.writeLine ("load " ++ write .inline arg ++ ";")
  | exec arg => p.writeLine ("exec " ++ write .inline arg ++ ";")
  | assign name value =>
      p.writeLine (name.text ++ " = " ++ write .inline value ++ ";")
  | binary op left right =>
      p.writeExpression (wrap left (write .inline left) ++ " " ++ op.kind.text ++ " " ++
        wrap right (write .inline right))
  | unary op operand =>
      p.writeExpression (op.kind.text ++ wrap operand (write .inline operand))
  | leaf token => p.writeExpression token.text

/-- Statements one below the other. -/
def writeAll (depth : Nat) : List Tree → String
  | [] => ""
  | t :: ts => write (.line depth) t ++ writeAll depth ts

end

/-- A tree in the words of the language: an expression within a line, a
statement as lines. -/
def text (t : Tree) : String := write .inline t

/-- A tree as a whole program. The statements of a scope need no braces here,
except that a scope of one statement would be read back as that statement. -/
def program : Tree → String
  | scope [t] => write (.line 0) (scope [t])
  | scope body => writeAll 0 body
  | t => write (.line 0) t

end Tree

end Quill
