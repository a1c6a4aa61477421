import Quill.Token

/-!
Token lists as tables: a row for each token with its line, the class and the
label of its kind, and its text.
-/

namespace Quill

def padLeft (width : Nat) (s : String) : String :=
  String.ofList (List.replicate (width - s.length) ' ') ++ s

def padRight (width : Nat) (s : String) : String :=
  s ++ String.ofList (List.replicate (width - s.length) ' ')

/-- The class of a kind. The two truth values are reserved words but count as
literals. -/
def Kind.className (k : Kind) : String :=
  if k.isLiteral then "literal"
  else if k.isKeyword then "keyword"
  else if k.isOperator then "operator"
  else "punct"

def Token.row (t : Token) : String :=
  padLeft 4 (toString t.line) ++ "  " ++ padRight 9 t.kind.className ++ " " ++
    padRight 10 t.kind.label ++ " " ++ t.text

end Quill
