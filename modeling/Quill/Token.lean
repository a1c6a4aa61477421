/-!
Tokens of the language. A token has a kind, the line it starts on, and for
numbers, strings and names a payload. The three fields are independent: text
only ever yields tokens whose payload suits their kind, but a token put
together by hand may combine them freely, and every function here is defined
on all of them.
-/

namespace Quill

/-- What sort of word or mark a token is. Line ends are counted and not kept,
so `newline` appears in no token list that was read from text. -/
inductive Kind
  | newline
  | kwLet | kwIf | kwWhile | kwPrint | kwLoad | kwExec | kwRead | kwTrue | kwFalse
  | int | string | ident
  | plus | minus | star | slash | bang | assign | less | greater
  | equal | notEqual | lessEqual | greaterEqual
  | lparen | rparen | lbrace | rbrace | semi
  | eof
  deriving DecidableEq, Repr, Inhabited

namespace Kind

def all : List Kind :=
  [.newline, .kwLet, .kwIf, .kwWhile, .kwPrint, .kwLoad, .kwExec, .kwRead, .kwTrue, .kwFalse,
    .int, .string, .ident,
    .plus, .minus, .star, .slash, .bang, .assign, .less, .greater,
    .equal, .notEqual, .lessEqual, .greaterEqual,
    .lparen, .rparen, .lbrace, .rbrace, .semi, .eof]

theorem mem_all (k : Kind) : k ∈ all := by
  cases k <;> decide

/-- The spelling of a kind in program text; a kind with no spelling of its own
is described in angle brackets. -/
def text : Kind → String
  | newline => "<newline>"
  | kwLet => "let"
  | kwIf => "if"
  | kwWhile => "while"
  | kwPrint => "print"
  | kwLoad => "load"
  | kwExec => "exec"
  | kwRead => "read"
  | kwTrue => "true"
  | kwFalse => "false"
  | int => "<int>"
  | string => "<string>"
  | ident => "<ident>"
  | plus => "+"
  | minus => "-"
  | star => "*"
  | slash => "/"
  | bang => "!"
  | assign => "="
  | less => "<"
  | greater => ">"
  | equal => "=="
  | notEqual => "!="
  | lessEqual => "<="
  | greaterEqual => ">="
  | lparen => "("
  | rparen => ")"
  | lbrace => "\x7b"
  | rbrace => "\x7d"
  | semi => ";"
  | eof => "<eof>"

/-- The label of a kind in token listings and tree documents. -/
def label : Kind → String
  | newline => "Newline"
  | kwLet => "Let"
  | kwIf => "If"
  | kwWhile => "While"
  | kwPrint => "Print"
  | kwLoad => "Load"
  | kwExec => "Exec"
  | kwRead => "Read"
  | kwTrue => "True"
  | kwFalse => "False"
  | int => "IntLit"
  | string => "StringLit"
  | ident => "Ident"
  | plus => "Plus"
  | minus => "Minus"
  | star => "Star"
  | slash => "Slash"
  | bang => "Bang"
  | assign => "Eq"
  | less => "Lt"
  | greater => "Gt"
  | equal => "EqEq"
  | notEqual => "Ne"
  | lessEqual => "Le"
  | greaterEqual => "Ge"
  | lparen => "LParen"
  | rparen => "RParen"
  | lbrace => "LBrace"
  | rbrace => "RBrace"
  | semi => "Semi"
  | eof => "Eof"

def ofLabel? (s : String) : Option Kind :=
  all.find? fun k => k.label = s

/-- The nine reserved words. The two truth values are among them, and so is
`read`, which no statement uses. -/
def isKeyword : Kind → Bool
  | kwLet | kwIf | kwWhile | kwPrint | kwLoad | kwExec | kwRead | kwTrue | kwFalse => true
  | _ => false

/-- The kinds that are an expression by themselves. -/
def isLiteral : Kind → Bool
  | int | string | kwTrue | kwFalse | ident => true
  | _ => false

def isOperator : Kind → Bool
  | plus | minus | star | slash | bang | assign | less | greater
  | equal | notEqual | lessEqual | greaterEqual => true
  | _ => false

/-- The reserved word that a word spells, if it spells one. -/
def keyword? (word : String) : Option Kind :=
  all.find? fun k => k.isKeyword && k.text = word

end Kind

/-- What a number, a string or a name carries besides its kind. -/
inductive Payload
  | int (n : Int64)
  | str (s : String)
  deriving DecidableEq, Repr

structure Token where
  kind : Kind
  line : Nat
  value : Option Payload
  deriving DecidableEq, Repr

namespace Token

/-- The text of a token: its payload, in quotes for a string, or else the
spelling of its kind. -/
def text (t : Token) : String :=
  match t.value with
  | some (.int n) => toString n.toInt
  | some (.str s) => if t.kind = .string then "\"" ++ s ++ "\"" else s
  | none => t.kind.text

/-- The name that an identifier token carries. -/
def name? (t : Token) : Option String :=
  match t.kind, t.value with
  | .ident, some (.str s) => some s
  | _, _ => none

end Token

end Quill
