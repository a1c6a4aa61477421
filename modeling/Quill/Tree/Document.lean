import Quill.Document
import Quill.Tree

/-!
Trees as JSON documents. A tree is an object with one field, named for its form;
declarations with and without a start value share a form.
-/

namespace Quill

def Payload.document : Payload → Document
  | int n => .object [("Int", .number n.toInt)]
  | str s => .object [("Str", .string s)]

def Token.document (t : Token) : Document :=
  .object [("kind", .string t.kind.label), ("line", .number t.line),
    ("value", t.value.elim .null Payload.document)]

namespace Tree

mutual

def document : Tree → Document
  | scope body => .object [("Scope", .array (documents body))]
  | declare name => .object [("Declaration", .object [("name", name.document), ("init", .null)])]
  | define name init =>
      .object [("Declaration", .object [("name", name.document), ("init", init.document)])]
  | branch cond body =>
      .object [("If", .object [("cond", cond.document), ("body", body.document)])]
  | loop cond body =>
      .object [("While", .object [("cond", cond.document), ("body", body.document)])]
  | print arg => .object [("Print", arg.document)]
  | load arg => .object [("Load", arg.document)]
  | exec arg => .object [("Exec", arg.document)]
  | assign name value =>
      .object [("Assign", .object [("name", name.document), ("value", value.document)])]
  | binary op left right =>
      .object [("Binary", .object [("op", op.document), ("left", left.document),
        ("right", right.document)])]
  | unary op operand =>
      .object [("Unary", .object [("op", op.document), ("operand", operand.document)])]
  | leaf token => .object [("Literal", token.document)]

def documents : List Tree → List Document
  | [] => []
  | t :: ts => t.document :: documents ts

end

end Tree

end Quill
