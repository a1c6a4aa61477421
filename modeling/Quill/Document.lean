/-!
Documents in JSON, and how they are laid out: one item or field on a line, with
two spaces of indentation for each level, and nothing between the brackets of an
empty list.
-/

namespace Quill

/-- A JSON value. The fields of an object keep their order. -/
inductive Document
  | null
  | number (n : Int)
  | string (s : String)
  | array (items : List Document)
  | object (fields : List (String × Document))

namespace Document

def hexDigits (n width : Nat) : List Char :=
  let digits := Nat.toDigits 16 n
  List.replicate (width - digits.length) '0' ++ digits

/-- One character inside a JSON string. Only quotes, backslashes and control
characters cannot stand for themselves. -/
def escape (c : Char) : List Char :=
  if c = '"' then ['\\', '"']
  else if c = '\\' then ['\\', '\\']
  else if c = '\x08' then ['\\', 'b']
  else if c = '\x0c' then ['\\', 'f']
  else if c = '\n' then ['\\', 'n']
  else if c = '\r' then ['\\', 'r']
  else if c = '\t' then ['\\', 't']
  else if c.toNat < 0x20 then ['\\', 'u'] ++ hexDigits c.toNat 4
  else [c]

def quote (s : String) : String :=
  String.ofList ('"' :: s.toList.flatMap escape ++ ['"'])

/-- The start of a line at a depth of nesting. -/
def newLine (depth : Nat) : String :=
  "\n" ++ String.ofList (List.replicate (2 * depth) ' ')

mutual

def write (depth : Nat) : Document → String
  | null => "null"
  | number n => toString n
  | string s => quote s
  | array [] => "[]"
  | array (item :: items) =>
      "[" ++ newLine (depth + 1) ++ write (depth + 1) item ++ writeItems (depth + 1) items ++
        newLine depth ++ "]"
  | object [] => "\x7b\x7d"
  | object (field :: fields) =>
      "\x7b" ++ newLine (depth + 1) ++ writeField (depth + 1) field ++
        writeFields (depth + 1) fields ++ newLine depth ++ "\x7d"

/-- The items behind the first. -/
def writeItems (depth : Nat) : List Document → String
  | [] => ""
  | item :: items => "," ++ newLine depth ++ write depth item ++ writeItems depth items

def writeField (depth : Nat) : String × Document → String
  | (name, value) => quote name ++ ": " ++ write depth value

/-- The fields behind the first. -/
def writeFields (depth : Nat) : List (String × Document) → String
  | [] => ""
  | field :: fields =>
      "," ++ newLine depth ++ writeField depth field ++ writeFields depth fields

end

def text (d : Document) : String := d.write 0

end Document

end Quill
