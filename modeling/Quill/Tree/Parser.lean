import Quill.Token.Lexer
import Quill.Tree.Printer

/-!
Reading tokens as a tree, by recursive descent. A parser takes the tokens that
are left and gives a tree with the tokens behind it. Each parser of the grammar
is built from smaller ones, and where the grammar turns back on itself the parser
of the inner part is a parameter: parentheses take the parser of what they
enclose, and blocks that of their statements.

The bound that runs through the definitions limits nesting and repetition. Every
level of nesting and every round of a repetition uses up a token, so the number
of tokens is bound enough, and that is the one `Tree.ofTokens` passes.
-/

namespace Quill

abbrev Parser := StateT (List Token) (Except Fault)

namespace Parser

/-- The fault of meeting the head of these tokens where something else belongs. -/
def unexpected (e : Expected) : List Token → Fault
  | [] => .parse e none 0
  | t :: _ => .parse e (some t.text) t.line

def expect (k : Kind) : Parser Token
  | [] => .error (unexpected (.kind k) [])
  | t :: ts => if t.kind = k then .ok (t, ts) else .error (unexpected (.kind k) (t :: ts))

/-- The next token has one of these kinds. -/
def nextIn (ks : List Kind) : List Token → Bool
  | [] => false
  | t :: _ => t.kind ∈ ks

/-! ### Expressions -/

/-- An expression that needs no brackets around it: a literal, or anything
inside parentheses. -/
def primary (inner : Parser Tree) : Parser Tree
  | [] => .error (unexpected .expression [])
  | t :: ts =>
      if t.kind.isLiteral then .ok (.leaf t, ts)
      else if t.kind = .lparen then
        match inner ts with
        | .ok (e, rest) =>
            match expect .rparen rest with
            | .ok (_, rest) => .ok (e, rest)
            | .error f => .error f
        | .error f => .error f
      else .error (unexpected .expression (t :: ts))

def unaryKinds : List Kind := [.minus, .plus, .bang]

/-- Any number of unary operators and then a primary expression. -/
def unary (inner : Parser Tree) : Parser Tree
  | [] => primary inner []
  | t :: ts =>
      if t.kind ∈ unaryKinds then
        match unary inner ts with
        | .ok (e, rest) => .ok (.unary t e, rest)
        | .error f => .error f
      else primary inner (t :: ts)

/-- Further operands of a chain, taken in to the left: `left` is what the chain
has made so far. -/
def chainFrom (ks : List Kind) (next : Parser Tree) : Nat → Tree → Parser Tree
  | 0, left, ts => .ok (left, ts)
  | _ + 1, left, [] => .ok (left, [])
  | n + 1, left, t :: ts =>
      if t.kind ∈ ks then
        match next ts with
        | .ok (right, rest) => chainFrom ks next n (.binary t left right) rest
        | .error f => .error f
      else .ok (left, t :: ts)

/-- Operands joined by operators of these kinds, grouped to the left. -/
def chain (bound : Nat) (ks : List Kind) (next : Parser Tree) : Parser Tree := do
  let left ← next
  chainFrom ks next bound left

def multiplicativeKinds : List Kind := [.star, .slash]
def additiveKinds : List Kind := [.plus, .minus]
def comparisonKinds : List Kind := [.less, .lessEqual, .greater, .greaterEqual]
def equalityKinds : List Kind := [.equal, .notEqual]

def multiplicative (bound : Nat) (inner : Parser Tree) : Parser Tree :=
  chain bound multiplicativeKinds (unary inner)

def additive (bound : Nat) (inner : Parser Tree) : Parser Tree :=
  chain bound additiveKinds (multiplicative bound inner)

def comparison (bound : Nat) (inner : Parser Tree) : Parser Tree :=
  chain bound comparisonKinds (additive bound inner)

def equality (bound : Nat) (inner : Parser Tree) : Parser Tree :=
  chain bound equalityKinds (comparison bound inner)

/-- An expression with parentheses nested no deeper than the bound. -/
def expression : Nat → Parser Tree
  | 0, ts => .error (unexpected .expression ts)
  | n + 1, ts => equality (n + 1) (expression n) ts

/-! ### Statements -/

/-- An expression, or an assignment to a name. That the left side is a name is
seen only once it has been read and `=` follows, and it is checked before the
right side is read. -/
def assignment (bound : Nat) : Parser Tree := do
  let target ← expression bound
  if nextIn [.assign] (← get) then
    let mark ← expect .assign
    match target.identifier? with
    | some name => return .assign name (← expression bound)
    | none => throw (.parse .target (some target.text) mark.line)
  else
    return target

def expressionStatement (bound : Nat) : Parser Tree := do
  let t ← assignment bound
  let _ ← expect .semi
  return t

def declaration (bound : Nat) : Parser Tree := do
  let _ ← expect .kwLet
  let name ← expect .ident
  if nextIn [.assign] (← get) then
    let _ ← expect .assign
    let init ← expression bound
    let _ ← expect .semi
    return .define name init
  else
    let _ ← expect .semi
    return .declare name

/-- A keyword, an expression and a semicolon. -/
def keywordStatement (k : Kind) (make : Tree → Tree) (bound : Nat) : Parser Tree := do
  let _ ← expect k
  let arg ← expression bound
  let _ ← expect .semi
  return make arg

/-- Statements up to a token of one of these kinds, which is left in place. -/
def statementsUntil (stops : List Kind) (statement : Parser Tree) : Nat → Parser (List Tree)
  | 0, ts => .ok ([], ts)
  | n + 1, ts =>
      if nextIn stops ts then .ok ([], ts)
      else
        match statement ts with
        | .ok (t, rest) =>
            match statementsUntil stops statement n rest with
            | .ok (body, rest) => .ok (t :: body, rest)
            | .error f => .error f
        | .error f => .error f

def block (bound : Nat) (statement : Parser Tree) : Parser Tree := do
  let _ ← expect .lbrace
  let body ← statementsUntil [.rbrace, .eof] statement bound
  let _ ← expect .rbrace
  return .scope body

/-- A keyword, a condition in parentheses and a block. -/
def conditional (k : Kind) (make : Tree → Tree → Tree) (bound : Nat) (statement : Parser Tree) :
    Parser Tree := do
  let _ ← expect k
  let _ ← expect .lparen
  let cond ← expression bound
  let _ ← expect .rparen
  let body ← block bound statement
  return make cond body

/-- A statement with blocks nested no deeper than the bound. Its first token
settles which form it has. -/
def statement : Nat → Parser Tree
  | 0, ts => .error (unexpected .expression ts)
  | n + 1, ts =>
      match ts.head?.map Token.kind with
      | some .kwLet => declaration (n + 1) ts
      | some .lbrace => block (n + 1) (statement n) ts
      | some .kwIf => conditional .kwIf .branch (n + 1) (statement n) ts
      | some .kwWhile => conditional .kwWhile .loop (n + 1) (statement n) ts
      | some .kwPrint => keywordStatement .kwPrint .print (n + 1) ts
      | some .kwLoad => keywordStatement .kwLoad .load (n + 1) ts
      | some .kwExec => keywordStatement .kwExec .exec (n + 1) ts
      | _ => expressionStatement (n + 1) ts

/-- A program that consists of one statement is that statement. -/
def collapse : List Tree → Tree
  | [t] => t
  | body => .scope body

/-- Statements up to the end mark, behind which nothing may follow. -/
def program (bound : Nat) : Parser Tree := do
  let body ← statementsUntil [.eof] (statement bound) bound
  let _ ← expect .eof
  match ← get with
  | [] => return collapse body
  | rest => throw (unexpected .nothingMore rest)

end Parser

namespace Tree

/-- The tree of a list of tokens, which has to close with an end mark. -/
def ofTokens (ts : List Token) : Except Fault Tree :=
  match ts.getLast? with
  | none => .error (.parse .finalEof none 0)
  | some t =>
      if t.kind = .eof then
        match Parser.program ts.length ts with
        | .ok (tree, _) => .ok tree
        | .error f => .error f
      else .error (.parse .finalEof (some t.text) t.line)

/-- The tree of a program text. -/
def ofText (source : String) : Except Fault Tree :=
  match lex source with
  | .ok ts => ofTokens ts
  | .error f => .error f

end Tree

end Quill
