import Quill.Double.Text

/-!
Values that programs compute with, and what can be asked of one: its type, its
text, whether it counts as true, and its order among the others. Numbers of
both types share one order, and that order is the exact one.
-/

namespace Quill

inductive ValueType
  | nil | bool | int | real | string
  deriving DecidableEq, Repr

def ValueType.name : ValueType → String
  | nil => "nil"
  | bool => "bool"
  | int => "int"
  | real => "real"
  | string => "string"

/-- A value. `nil` is what statements give and what a variable holds before it
is assigned. -/
inductive Value
  | nil
  | bool (b : Bool)
  | int (n : Int64)
  | real (x : Float)
  | str (s : String)
  deriving DecidableEq

namespace Value

def type : Value → ValueType
  | nil => .nil
  | bool _ => .bool
  | int _ => .int
  | real _ => .real
  | str _ => .string

/-- A whole real keeps its point, so that the text of a real is never that of
an integer. -/
def text : Value → String
  | nil => "nil"
  | bool b => if b then "true" else "false"
  | int n => toString n.toInt
  | real x => (Exact.ofFloat x).text
  | str s => s

/-- Nothing, zero and the empty string count as false; an undefined real counts
as true. -/
def isTruthy : Value → Bool
  | nil => false
  | bool b => b
  | int n => n ≠ 0
  | real x => !(Exact.ofFloat x).isZero
  | str s => s ≠ ""

/-- A number as a real, an integer being rounded to the nearest one. -/
def toReal? : Value → Option Float
  | int n => some (Float.ofInt n.toInt)
  | real x => some x
  | _ => none

/-- The order of two values: numbers by their exact value, strings by code
point, and false below true. Values of other types, and an undefined real, are
not ordered. -/
def order : Value → Value → Option Ordering
  | int a, int b => some (compare a.toInt b.toInt)
  | str a, str b => some (compare a b)
  | bool a, bool b => some (compare a b)
  | real x, real y => (Exact.ofFloat x).order (Exact.ofFloat y)
  | int a, real y => (Exact.ofFloat y).orderInt a
  | real x, int b => ((Exact.ofFloat x).orderInt b).map Ordering.swap
  | _, _ => none

/-- Equality in programs. It is defined on all pairs of values, holds across
the two types of number, and fails for an undefined real even against itself. -/
def equals : Value → Value → Bool
  | nil, nil => true
  | bool a, bool b => a = b
  | int a, int b => a = b
  | str a, str b => a = b
  | real x, real y => (Exact.ofFloat x).order (Exact.ofFloat y) = some .eq
  | int a, real y => (Exact.ofFloat y).orderInt a = some .eq
  | real x, int b => (Exact.ofFloat x).orderInt b = some .eq
  | _, _ => false

end Value

end Quill
