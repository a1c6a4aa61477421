import Quill.Proofs.Effects
import Quill.Proofs.Formatting

/-!
Expressions, and those on integers in particular. How an expression ends follows from
how its operands end, and the rules for this, one for each way, make no mention of
fuel: an operand that fails ends the whole expression with its fault, the left one
before the right one and both before the operator.

An expression made of numbers, sums, differences, products and signs has a value in
the arithmetic of all integers, and so has every part of it. As long as these values
are machine integers, evaluation works them out exactly. Where one is not, evaluation
stops there: parts come before what they are part of and left before right, and the
first of them with a value that is too large or too small is the one to overflow
(`settles_of_isInteger`).
-/

namespace Quill

open Eval

variable {H : Type}

/-! ### How expressions end -/

namespace Tree

variable [HostLike H] {t left right operand : Tree} {op : Token} {w v u : World H}
  {a b : Value} {f : Fault} {o : Outcome Value H}

/-- What is enough fuel for an evaluation to end, any more is too. -/
theorem Ends.exists_fuel (h : t.Ends w o) : ∃ n, ∀ m, n ≤ m → eval m t w = o := by
  obtain ⟨ho, n, rfl⟩ := h
  exact ⟨n, fun m hm => eval_extends hm t w ho⟩

theorem Ends.unary_fault (h : operand.Ends w (.fault f v)) :
    (Tree.unary op operand).Ends w (.fault f v) := by
  obtain ⟨n, hn⟩ := h.exists_fuel
  refine ⟨by simp, n + 1, ?_⟩
  simp only [eval, Bind.bind, hn n (Nat.le_refl n)]

theorem Ends.unary (h : operand.Ends w (.done a v)) (hop : Eval.unary op a v = o)
    (ho : o ≠ .exhausted) : (Tree.unary op operand).Ends w o := by
  obtain ⟨n, hn⟩ := h.exists_fuel
  refine ⟨ho, n + 1, ?_⟩
  simp only [eval, Bind.bind, hn n (Nat.le_refl n), hop]

theorem Ends.left_fault (h : left.Ends w (.fault f v)) :
    (Tree.binary op left right).Ends w (.fault f v) := by
  obtain ⟨n, hn⟩ := h.exists_fuel
  refine ⟨by simp, n + 1, ?_⟩
  simp only [eval, Bind.bind, hn n (Nat.le_refl n)]

theorem Ends.right_fault (hleft : left.Ends w (.done a v)) (hright : right.Ends v (.fault f u)) :
    (Tree.binary op left right).Ends w (.fault f u) := by
  obtain ⟨n, hn⟩ := hleft.exists_fuel
  obtain ⟨m, hm⟩ := hright.exists_fuel
  refine ⟨by simp, max n m + 1, ?_⟩
  simp only [eval, Bind.bind, hn _ (Nat.le_max_left n m), hm _ (Nat.le_max_right n m)]

theorem Ends.binary (hleft : left.Ends w (.done a v)) (hright : right.Ends v (.done b u))
    (hop : Eval.binary op a b u = o) (ho : o ≠ .exhausted) :
    (Tree.binary op left right).Ends w o := by
  obtain ⟨n, hn⟩ := hleft.exists_fuel
  obtain ⟨m, hm⟩ := hright.exists_fuel
  refine ⟨ho, max n m + 1, ?_⟩
  simp only [eval, Bind.bind, hn _ (Nat.le_max_left n m), hm _ (Nat.le_max_right n m), hop]

end Tree

/-- To run a text is to evaluate its tree. -/
theorem ends_iff_of_ofText [HostLike H] {source : String} {t : Tree}
    (h : Tree.ofText source = .ok t) (w : World H) (o : Outcome Value H) :
    Ends source w o ↔ t.Ends w o := by
  simp only [Ends, Tree.Ends, run_of_ofText h]

/-! ### Integers without bounds -/

/-- The integer is a machine integer. -/
def InRange (n : Int) : Prop := Int64.minValue.toInt ≤ n ∧ n ≤ Int64.maxValue.toInt

instance : DecidablePred InRange :=
  fun n => inferInstanceAs (Decidable (Int64.minValue.toInt ≤ n ∧ n ≤ Int64.maxValue.toInt))

theorem inRange_toInt (n : Int64) : InRange n.toInt :=
  ⟨n.minValue_le_toInt, n.toInt_le⟩

theorem toInt64?_eq_none_iff_not_inRange (n : Int) : toInt64? n = none ↔ ¬ InRange n := by
  rw [toInt64?_eq_none_iff, InRange]
  omega

/-- Sum, difference and product of any two integers. -/
def Kind.combine : Kind → Int → Int → Int
  | .plus, m, n => m + n
  | .minus, m, n => m - n
  | .star, m, n => m * n
  | _, _, _ => 0

namespace Tree

/-- Numbers, joined by sums, differences and products, with any number of signs. -/
def isInteger : Tree → Bool
  | leaf token => token.kind = .int
  | unary op operand => op.kind ∈ [Kind.minus, .plus] && isInteger operand
  | binary op left right =>
      op.kind ∈ [Kind.plus, .minus, .star] && isInteger left && isInteger right
  | _ => false

theorem not_isStatement_of_isInteger {t : Tree} (h : t.isInteger) : t.isStatement = false := by
  cases t with
  | leaf _ | unary _ _ | binary _ _ _ => rfl
  | _ => cases h

/-- The value of such an expression in the arithmetic of all integers. -/
def exact : Tree → Int
  | leaf token =>
      match token.value with
      | some (.int n) => n.toInt
      | _ => 0
  | unary op operand => if op.kind = .minus then -exact operand else exact operand
  | binary op left right => op.kind.combine (exact left) (exact right)
  | _ => 0

/-- The parts of an expression and itself, operands before what they belong to and
left before right. -/
def subexpressions : Tree → List Tree
  | unary op operand => subexpressions operand ++ [unary op operand]
  | binary op left right =>
      subexpressions left ++ (subexpressions right ++ [binary op left right])
  | t => [t]

/-- The operator at the root of an expression. -/
def operator? : Tree → Option Token
  | unary op _ | binary op _ _ => some op
  | _ => none

/-- The first part whose exact value is no machine integer. -/
def firstOverflow? (t : Tree) : Option Tree :=
  t.subexpressions.find? fun u => !decide (InRange u.exact)

theorem firstOverflow?_unary (op : Token) (operand : Tree) :
    (unary op operand).firstOverflow? = operand.firstOverflow?.or
      (if InRange (unary op operand).exact then none else some (unary op operand)) := by
  simp [firstOverflow?, subexpressions]

theorem firstOverflow?_binary (op : Token) (left right : Tree) :
    (binary op left right).firstOverflow? = left.firstOverflow?.or (right.firstOverflow?.or
      (if InRange (binary op left right).exact then none else some (binary op left right))) := by
  simp [firstOverflow?, subexpressions]

end Tree

/-! ### Integers of the machine -/

/-- How an operator ends whose exact result is this integer. -/
def Outcome.fit (op : Token) (n : Int) (w : World H) : Outcome Value H :=
  match toInt64? n with
  | some r => .done (.int r) w
  | none => .fault (.overflow op.kind op.line) w

theorem Outcome.fit_ne_exhausted (op : Token) (n : Int) (w : World H) :
    Outcome.fit op n w ≠ .exhausted := by
  unfold Outcome.fit
  cases toInt64? n <;> simp

namespace Eval

variable {op : Token} (a b : Int64) (w : World H)

theorem unary_int (hop : op.kind ∈ [Kind.minus, .plus]) :
    unary op (.int a) w = .fit op (if op.kind = .minus then -a.toInt else a.toInt) w := by
  obtain ⟨k, line, value⟩ := op
  simp only [List.mem_cons, List.not_mem_nil, or_false] at hop
  rcases hop with rfl | rfl
  · simp only [unary, UnaryOp.ofKind?, UnaryOp.apply, if_true, Outcome.fit]
    cases toInt64? (-a.toInt) <;> rfl
  · have hfit : toInt64? a.toInt = some a := (toInt64?_eq_some_iff _ _).2 rfl
    simp only [Outcome.fit, reduceCtorEq, if_false, hfit]
    rfl

theorem ofExcept_arithmetic (o : BinaryOp) (exact : Int → Int → Int)
    (rounded : Float → Float → Float) (line : Nat) :
    ofExcept (o.arithmetic exact rounded (.int a) (.int b) line) w =
      .fit ⟨o.kind, line, none⟩ (exact a.toInt b.toInt) w := by
  simp only [BinaryOp.arithmetic, Outcome.fit]
  cases toInt64? (exact a.toInt b.toInt) <;> rfl

theorem binary_int (hop : op.kind ∈ [Kind.plus, .minus, .star]) :
    binary op (.int a) (.int b) w = .fit op (op.kind.combine a.toInt b.toInt) w := by
  obtain ⟨k, line, value⟩ := op
  simp only [List.mem_cons, List.not_mem_nil, or_false] at hop
  rcases hop with rfl | rfl | rfl
  · exact ofExcept_arithmetic a b w .add (· + ·) (· + ·) line
  · exact ofExcept_arithmetic a b w .sub (· - ·) (· - ·) line
  · exact ofExcept_arithmetic a b w .mul (· * ·) (· * ·) line

end Eval

variable [HostLike H]

namespace Tree

/-- What comes of an expression, given the first part that overflows. -/
def Settles (t : Tree) (w : World H) : Option Tree → Prop
  | none => ∃ n : Int64, n.toInt = t.exact ∧ t.Ends w (.done (.int n) w)
  | some u =>
      ∃ op, u.operator? = some op ∧ t.Ends w (.fault (.overflow op.kind op.line) w)

/-- If no part overflows, the expression as a whole gives its value or overflows. -/
theorem settles_of_fit {t : Tree} {op : Token} {w : World H} (hop : t.operator? = some op)
    (h : t.Ends w (.fit op t.exact w)) :
    t.Settles w (if InRange t.exact then none else some t) := by
  unfold Outcome.fit at h
  cases hfit : toInt64? t.exact with
  | some n =>
      rw [hfit] at h
      have hn : n.toInt = t.exact := (toInt64?_eq_some_iff _ _).1 hfit
      rw [if_pos (hn ▸ inRange_toInt n)]
      exact ⟨n, hn, h⟩
  | none =>
      rw [hfit] at h
      rw [if_neg ((toInt64?_eq_none_iff_not_inRange _).1 hfit)]
      exact ⟨op, hop, h⟩

/-- An integer expression gives its exact value, unless some part overflows: then it
fails with the overflow of the first such part. -/
theorem settles_of_isInteger {t : Tree} (ht : t.WellFormedExpression) (hint : t.isInteger)
    (w : World H) : t.Settles w t.firstOverflow? := by
  induction ht with
  | @leaf token _ htoken =>
      obtain ⟨kind, line, value⟩ := token
      have hkind : kind = .int := of_decide_eq_true hint
      subst hkind
      obtain ⟨n, rfl, -⟩ := htoken
      have hnone : (leaf ⟨.int, line, some (.int n)⟩).firstOverflow? = none := by
        simp [firstOverflow?, subexpressions, exact, inRange_toInt]
      rw [hnone]
      exact ⟨n, rfl, by simp, 1, rfl⟩
  | @unary op operand _ _ _ ih =>
      obtain ⟨hop, hoperand⟩ := (Bool.and_eq_true _ _).mp hint
      have hsettles := ih hoperand
      rw [firstOverflow?_unary]
      cases hfirst : operand.firstOverflow? with
      | some u =>
          rw [hfirst] at hsettles
          obtain ⟨op', hu, hends⟩ := hsettles
          exact ⟨op', hu, hends.unary_fault⟩
      | none =>
          rw [hfirst] at hsettles
          obtain ⟨a, ha, hends⟩ := hsettles
          have hunary := unary_int a w (of_decide_eq_true hop)
          rw [ha] at hunary
          exact settles_of_fit rfl (hends.unary hunary (Outcome.fit_ne_exhausted _ _ _))
  | @binary op left right _ _ _ _ ihl ihr =>
      obtain ⟨hparts, hright⟩ := (Bool.and_eq_true _ _).mp hint
      obtain ⟨hop, hleft⟩ := (Bool.and_eq_true _ _).mp hparts
      have hsettles := ihl hleft
      have hsettles' := ihr hright
      rw [firstOverflow?_binary]
      cases hfirst : left.firstOverflow? with
      | some u =>
          rw [hfirst] at hsettles
          obtain ⟨op', hu, hends⟩ := hsettles
          exact ⟨op', hu, hends.left_fault⟩
      | none =>
          rw [hfirst] at hsettles
          obtain ⟨a, ha, hends⟩ := hsettles
          cases hsecond : right.firstOverflow? with
          | some u =>
              rw [hsecond] at hsettles'
              obtain ⟨op', hu, hends'⟩ := hsettles'
              exact ⟨op', hu, hends.right_fault hends'⟩
          | none =>
              rw [hsecond] at hsettles'
              obtain ⟨b, hb, hends'⟩ := hsettles'
              have hbinary := binary_int a b w (of_decide_eq_true hop)
              rw [ha, hb] at hbinary
              exact settles_of_fit rfl
                (hends.binary hends' hbinary (Outcome.fit_ne_exhausted _ _ _))

end Tree

/-- Integer expressions are exact or report the first overflow. Run as a program, an
expression of numbers, sums, differences, products and signs gives its value in the
arithmetic of all integers if the exact values of all its parts are machine integers.
If not, it fails with an overflow that names the operator of the first part for which
this is not so, and the line of that operator. It leaves the world alone either way. -/
theorem run_integer_expression {source : String} {t : Tree} (h : Tree.ofText source = .ok t)
    (hint : t.isInteger) (w : World H) :
    ((∀ u ∈ t.subexpressions, InRange u.exact) →
      ∃ n : Int64, n.toInt = t.exact ∧ Ends source w (.done (.int n) w)) ∧
    (∀ before u after, t.subexpressions = before ++ u :: after →
      (∀ s ∈ before, InRange s.exact) → ¬ InRange u.exact →
      ∃ op, u.operator? = some op ∧
        Ends source w (.fault (.overflow op.kind op.line) w)) := by
  have hexpr : t.WellFormedExpression :=
    Tree.wellFormedExpression_of_not_isStatement (wellFormed_of_ofText h)
      (Tree.not_isStatement_of_isInteger hint)
  have hsettles := Tree.settles_of_isInteger hexpr hint w
  simp only [ends_iff_of_ofText h]
  constructor
  · intro hrange
    have hfirst : t.firstOverflow? = none := by
      rw [Tree.firstOverflow?, List.find?_eq_none]
      intro u hu
      simpa using hrange u hu
    rwa [hfirst] at hsettles
  · intro before u after hsub hbefore hu
    have hfirst : t.firstOverflow? = some u := by
      rw [Tree.firstOverflow?, List.find?_eq_some_iff_append]
      refine ⟨by simpa using hu, before, after, hsub, fun s hs => ?_⟩
      simpa using hbefore s hs
    rwa [hfirst] at hsettles

/-- The least integer is reached, and then a product of which one factor is too large
already: the sum inside it is the first to overflow, on its own line. -/
theorem run_integer_expression_least :
    let big : Token := ⟨.int, 1, some (.int Int64.maxValue)⟩
    let least : Tree :=
      .binary ⟨.minus, 1, none⟩ (.unary ⟨.minus, 1, none⟩ (.leaf big))
        (.leaf ⟨.int, 1, some (.int 1)⟩)
    let sum : Tree := .binary ⟨.plus, 2, none⟩ (.leaf big) (.leaf ⟨.int, 2, some (.int 1)⟩)
    let product : Tree := .binary ⟨.star, 2, none⟩ sum (.leaf ⟨.int, 2, some (.int 2)⟩)
    let w : World := .initial (.ofFiles fun _ => none)
    Tree.ofText "-9223372036854775807-1;" = .ok least ∧
      Tree.ofText "-9223372036854775807-1-(9223372036854775807\n+1)*2;" =
        .ok (.binary ⟨.minus, 1, none⟩ least product) ∧
      (∃ n : Int64, n.toInt = -9223372036854775808 ∧
        Ends "-9223372036854775807-1;" w (.done (.int n) w)) ∧
      Ends "-9223372036854775807-1-(9223372036854775807\n+1)*2;" w
        (.fault (.overflow .plus 2) w) := by
  intro big least sum product w
  have hlex : lex "-9223372036854775807-1;" = .ok [⟨.minus, 1, none⟩, big, ⟨.minus, 1, none⟩,
      ⟨.int, 1, some (.int 1)⟩, ⟨.semi, 1, none⟩, ⟨.eof, 1, none⟩] := by decide +kernel
  have hleast : Tree.ofText "-9223372036854775807-1;" = .ok least := by
    rw [Tree.ofText, hlex]
    rfl
  have hlex' : lex "-9223372036854775807-1-(9223372036854775807\n+1)*2;" =
      .ok [⟨.minus, 1, none⟩, big, ⟨.minus, 1, none⟩, ⟨.int, 1, some (.int 1)⟩,
        ⟨.minus, 1, none⟩, ⟨.lparen, 1, none⟩, big, ⟨.plus, 2, none⟩,
        ⟨.int, 2, some (.int 1)⟩, ⟨.rparen, 2, none⟩, ⟨.star, 2, none⟩,
        ⟨.int, 2, some (.int 2)⟩, ⟨.semi, 2, none⟩, ⟨.eof, 2, none⟩] := by decide +kernel
  have hdifference : Tree.ofText "-9223372036854775807-1-(9223372036854775807\n+1)*2;" =
      .ok (.binary ⟨.minus, 1, none⟩ least product) := by
    rw [Tree.ofText, hlex']
    rfl
  refine ⟨hleast, hdifference, (run_integer_expression hleast rfl w).1 (by decide), ?_⟩
  obtain ⟨op, hop, hends⟩ := (run_integer_expression hdifference rfl w).2
    (least.subexpressions ++ [.leaf big, .leaf ⟨.int, 2, some (.int 1)⟩]) sum _ rfl (by decide)
    (by decide)
  cases hop
  exact hends

end Quill
