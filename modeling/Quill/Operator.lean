import Quill.Fault

/-!
Operators on values. Integer arithmetic is exact or fails; mixed arithmetic and
every division is done in reals. `+` also joins strings, and joins a string with
the text of an integer. The line handed to an operator appears in faults only.
-/

namespace Quill

inductive BinaryOp
  | add | sub | mul | div
  | equal | notEqual | less | lessEqual | greater | greaterEqual
  deriving DecidableEq, Repr

inductive UnaryOp
  | neg | not | plus
  deriving DecidableEq, Repr

namespace BinaryOp

def kind : BinaryOp → Kind
  | add => .plus
  | sub => .minus
  | mul => .star
  | div => .slash
  | equal => .equal
  | notEqual => .notEqual
  | less => .less
  | lessEqual => .lessEqual
  | greater => .greater
  | greaterEqual => .greaterEqual

def ofKind? : Kind → Option BinaryOp
  | .plus => some add
  | .minus => some sub
  | .star => some mul
  | .slash => some div
  | .equal => some equal
  | .notEqual => some notEqual
  | .less => some less
  | .lessEqual => some lessEqual
  | .greater => some greater
  | .greaterEqual => some greaterEqual
  | _ => none

theorem ofKind?_eq_some_iff (k : Kind) (op : BinaryOp) : ofKind? k = some op ↔ op.kind = k := by
  cases k <;> cases op <;> decide

def mismatch (op : BinaryOp) (a b : Value) (line : Nat) : Fault :=
  .typeMismatch op.kind a.type b.type line

/-- Arithmetic on numbers: exact on two integers, rounded when a real takes
part. -/
def arithmetic (op : BinaryOp) (exact : Int → Int → Int) (rounded : Float → Float → Float)
    (a b : Value) (line : Nat) : Except Fault Value :=
  match a, b with
  | .int m, .int n =>
      match toInt64? (exact m.toInt n.toInt) with
      | some r => .ok (.int r)
      | none => .error (.overflow op.kind line)
  | a, b =>
      match a.toReal?, b.toReal? with
      | some x, some y => .ok (.real (rounded x y))
      | _, _ => .error (op.mismatch a b line)

/-- Division gives a real also on integers, and has no value at zero. -/
def divide (op : BinaryOp) (a b : Value) (line : Nat) : Except Fault Value :=
  match a.toReal?, b.toReal? with
  | some x, some y =>
      if (Exact.ofFloat y).isZero then .error (.divisionByZero line) else .ok (.real (x / y))
  | _, _ => .error (op.mismatch a b line)

/-- An ordering operator, given the outcomes on which it holds. -/
def ordering (op : BinaryOp) (accepts : Ordering → Bool) (a b : Value) (line : Nat) :
    Except Fault Value :=
  match a.order b with
  | some o => .ok (.bool (accepts o))
  | none => .error (op.mismatch a b line)

def apply (op : BinaryOp) (a b : Value) (line : Nat) : Except Fault Value :=
  match op with
  | add =>
      match a, b with
      | .str s, .str t => .ok (.str (s ++ t))
      | .str s, .int n => .ok (.str (s ++ (Value.int n).text))
      | .int n, .str t => .ok (.str ((Value.int n).text ++ t))
      | a, b => op.arithmetic (· + ·) (· + ·) a b line
  | sub => op.arithmetic (· - ·) (· - ·) a b line
  | mul => op.arithmetic (· * ·) (· * ·) a b line
  | div => op.divide a b line
  | equal => .ok (.bool (a.equals b))
  | notEqual => .ok (.bool (!a.equals b))
  | less => op.ordering (· == .lt) a b line
  | lessEqual => op.ordering (· != .gt) a b line
  | greater => op.ordering (· == .gt) a b line
  | greaterEqual => op.ordering (· != .lt) a b line

/-- The faults that an operator can give rise to on a line. -/
inductive Fails (op : BinaryOp) (line : Nat) : Fault → Prop
  | mismatch (left right : ValueType) : Fails op line (.typeMismatch op.kind left right line)
  | overflow : Fails op line (.overflow op.kind line)
  | divisionByZero (h : op = div) : Fails op line (.divisionByZero line)

section

variable {op : BinaryOp} {a b : Value} {line : Nat} {f : Fault}

theorem fails_of_arithmetic {exact : Int → Int → Int} {rounded : Float → Float → Float}
    (h : op.arithmetic exact rounded a b line = .error f) : op.Fails line f := by
  unfold arithmetic at h
  split at h
  · split at h
    · cases h
    · cases h
      exact .overflow
  · split at h
    · cases h
    · cases h
      exact .mismatch _ _

theorem fails_of_divide (hop : op = div) (h : op.divide a b line = .error f) :
    op.Fails line f := by
  unfold divide at h
  split at h
  · split at h
    · cases h
      exact .divisionByZero hop
    · cases h
  · cases h
    exact .mismatch _ _

theorem fails_of_ordering {accepts : Ordering → Bool}
    (h : op.ordering accepts a b line = .error f) : op.Fails line f := by
  unfold ordering at h
  split at h
  · cases h
  · cases h
    exact .mismatch _ _

theorem fails_of_apply (h : op.apply a b line = .error f) : op.Fails line f := by
  cases op with
  | add =>
      simp only [apply] at h
      split at h
      · cases h
      · cases h
      · cases h
      · exact fails_of_arithmetic h
  | sub => exact fails_of_arithmetic h
  | mul => exact fails_of_arithmetic h
  | div => exact fails_of_divide rfl h
  | equal => cases h
  | notEqual => cases h
  | less => exact fails_of_ordering h
  | lessEqual => exact fails_of_ordering h
  | greater => exact fails_of_ordering h
  | greaterEqual => exact fails_of_ordering h

end

end BinaryOp

namespace UnaryOp

def kind : UnaryOp → Kind
  | neg => .minus
  | not => .bang
  | plus => .plus

def ofKind? : Kind → Option UnaryOp
  | .minus => some neg
  | .bang => some not
  | .plus => some plus
  | _ => none

theorem ofKind?_eq_some_iff (k : Kind) (op : UnaryOp) : ofKind? k = some op ↔ op.kind = k := by
  cases k <;> cases op <;> decide

/-- The unary plus leaves any value as it is; the negation of the least integer
does not fit. -/
def apply (op : UnaryOp) (a : Value) (line : Nat) : Except Fault Value :=
  match op with
  | neg =>
      match a with
      | .int n =>
          match toInt64? (-n.toInt) with
          | some r => .ok (.int r)
          | none => .error (.overflow op.kind line)
      | .real x => .ok (.real (-x))
      | a => .error (.badOperand op.kind a.type line)
  | not => .ok (.bool (!a.isTruthy))
  | plus => .ok a

/-- The faults that an operator can give rise to on a line. Only the negation
gives rise to any. -/
inductive Fails (op : UnaryOp) (line : Nat) : Fault → Prop
  | badOperand (h : op = neg) (found : ValueType) : Fails op line (.badOperand op.kind found line)
  | overflow (h : op = neg) : Fails op line (.overflow op.kind line)

theorem fails_of_apply {op : UnaryOp} {a : Value} {line : Nat} {f : Fault}
    (h : op.apply a line = .error f) : op.Fails line f := by
  cases op with
  | neg =>
      simp only [apply] at h
      split at h
      · split at h
        · cases h
        · cases h
          exact .overflow rfl
      · cases h
      · cases h
        exact .badOperand rfl _
  | not => cases h
  | plus => cases h

end UnaryOp

end Quill
