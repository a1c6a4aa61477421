import Quill.Operator
import Quill.Proofs.ExactOrder

/-!
The comparison operators as one order. Equality and the four orderings are computed
along different ways through the types of values, and between an integer and a real
the ordering is found from one side only and turned round for the other. What holds
them together is that every value, the undefined real apart, has a rank: numbers of
both types the place of their exact value on the line, strings and truth values
themselves, and nothing a rank of its own. Two values are equal if and only if they
have the same rank, and they are ordered as their ranks are (`equals_iff`,
`order_eq_rank`), so the laws of the operators are laws of linear orders. No rank is
ever rounded, which is what the chains that lead from integers through reals and
back to integers depend on.
-/

namespace Quill

/-! ### Ranks -/

/-- What a value is compared by. -/
inductive Rank
  | nothing
  | truth (b : Bool)
  | number (p : Exact.Line)
  | text (s : String)

namespace Rank

/-- Ranks of one sort are ordered, with the exception of nothing. -/
def order : Rank → Rank → Option Ordering
  | truth a, truth b => some (cmp a b)
  | number p, number q => some (cmp p q)
  | text s, text t => some (cmp s t)
  | _, _ => none

/-- The types of the values that may have the rank. -/
def types : Rank → List ValueType
  | nothing => [.nil]
  | truth _ => [.bool]
  | number _ => [.int, .real]
  | text _ => [.string]

variable {r s t : Rank}

theorem order_swap (r s : Rank) : (r.order s).map Ordering.swap = s.order r := by
  cases r <;> cases s <;> simp [order, cmp_swap]

theorem order_eq_some_eq_iff : r.order s = some .eq ↔ r = s ∧ r ≠ nothing := by
  cases r <;> cases s <;> simp [order]

theorem order_trans (h : r.order s = some .lt) (h' : s.order t = some .lt) :
    r.order t = some .lt := by
  cases r <;> cases s <;> simp only [order, Option.some.injEq, reduceCtorEq] at h <;>
    cases t <;> simp only [order, Option.some.injEq, reduceCtorEq] at h' ⊢ <;>
    exact (cmp_eq_lt_iff _ _).2 (((cmp_eq_lt_iff _ _).1 h).trans ((cmp_eq_lt_iff _ _).1 h'))

end Rank

namespace Value

variable {a b : Value} {r s : Rank}

/-- The real that is no number. -/
def IsNaN : Value → Prop
  | real x => Exact.ofFloat x = .nan
  | _ => False

def rank? : Value → Option Rank
  | nil => some .nothing
  | bool b => some (.truth b)
  | int n => some (.number (Exact.place n.toInt))
  | real x => (Exact.ofFloat x).value?.map .number
  | str s => some (.text s)

theorem rank?_eq_none_iff (a : Value) : a.rank? = none ↔ a.IsNaN := by
  cases a <;> simp [rank?, IsNaN, Exact.value?_eq_none_iff]

theorem exists_rank (ha : ¬a.IsNaN) : ∃ r, a.rank? = some r :=
  Option.ne_none_iff_exists'.1 fun h => ha ((rank?_eq_none_iff a).1 h)

theorem not_isNaN_of_rank (h : a.rank? = some r) : ¬a.IsNaN := by
  rw [← rank?_eq_none_iff, h]
  exact Option.some_ne_none r

theorem type_mem_types (h : a.rank? = some r) : a.type ∈ r.types := by
  cases a with
  | real x =>
      obtain ⟨p, -, rfl⟩ := Option.map_eq_some_iff.1 h
      exact .tail _ (.head _)
  | nil | bool _ | int _ | str _ =>
      cases h
      exact .head _

theorem eq_nil_of_rank (h : a.rank? = some .nothing) : a = nil := by
  cases a <;> simp [rank?] at h ⊢

theorem onGrid_ofFloat (x : Float) : (Exact.ofFloat x).OnGrid := Exact.onGrid_ofBits _

theorem compare_int_eq (m n : Int) : compare m n = cmp (Exact.place m) (Exact.place n) := by
  rw [Exact.strictMono_place.cmp_map_eq, Int.cast_strictMono.cmp_map_eq, cmp_eq_compare]

/-- Values are ordered as their ranks. -/
theorem order_eq_rank (a b : Value) :
    a.order b = a.rank?.bind fun r => b.rank?.bind r.order := by
  cases a <;> cases b
  case bool.bool s t => cases s <;> cases t <;> rfl
  case str.str s t => exact congrArg some (cmp_eq_compare s t).symm
  case int.int m n => exact congrArg some (compare_int_eq m.toInt n.toInt)
  case real.real x y =>
    simp only [order, Exact.order_eq (onGrid_ofFloat x) (onGrid_ofFloat y), rank?]
    cases (Exact.ofFloat x).value? <;> cases (Exact.ofFloat y).value? <;> rfl
  case int.real m y =>
    simp only [order, Exact.orderInt_eq, rank?, Option.bind_some]
    cases (Exact.ofFloat y).value? <;> rfl
  case real.int x n =>
    -- found from the side of the integer, and turned round
    simp only [order, Exact.orderInt_eq, rank?]
    cases (Exact.ofFloat x).value? with
    | none => rfl
    | some p => exact congrArg some (cmp_swap _ p)
  case real.nil x | real.bool x _ | real.str x _ =>
    cases h : (Exact.ofFloat x).value? <;> simp [order, rank?, Rank.order, h]
  case nil.real y | bool.real _ y | str.real _ y =>
    cases h : (Exact.ofFloat y).value? <;> simp [order, rank?, Rank.order, h]
  all_goals rfl

theorem order_swap (a b : Value) : (a.order b).map Ordering.swap = b.order a := by
  rw [order_eq_rank, order_eq_rank]
  cases a.rank? with
  | none => cases b.rank? <;> rfl
  | some r =>
      cases b.rank? with
      | none => rfl
      | some s => exact Rank.order_swap r s

theorem exists_rank_of_order {o : Ordering} (h : a.order b = some o) :
    ∃ r s, a.rank? = some r ∧ b.rank? = some s ∧ r.order s = some o := by
  rw [order_eq_rank] at h
  obtain ⟨r, ha, h⟩ := Option.bind_eq_some_iff.1 h
  obtain ⟨s, hb, h⟩ := Option.bind_eq_some_iff.1 h
  exact ⟨r, s, ha, hb, h⟩

theorem order_of_rank (ha : a.rank? = some r) (hb : b.rank? = some s) :
    a.order b = r.order s := by
  rw [order_eq_rank, ha, hb]
  rfl

theorem order_trans {c : Value} (h : a.order b = some .lt) (h' : b.order c = some .lt) :
    a.order c = some .lt := by
  obtain ⟨r, s, ha, hb, hrs⟩ := exists_rank_of_order h
  obtain ⟨s', t, hb', hc, hst⟩ := exists_rank_of_order h'
  obtain rfl : s = s' := Option.some_inj.1 (hb.symm.trans hb')
  rw [order_of_rank ha hc]
  exact Rank.order_trans hrs hst

/-- Equality is an outcome of the ordering, but for nothing, which equals itself and is
ordered with no value. -/
theorem equals_iff_order (a b : Value) :
    a.equals b = true ↔ (a = nil ∧ b = nil) ∨ a.order b = some .eq := by
  cases a <;> cases b <;> simp [equals, order, Int64.toInt_inj]

/-- Values are equal if they have the same rank. -/
theorem equals_iff (a b : Value) :
    a.equals b = true ↔ ∃ r, a.rank? = some r ∧ b.rank? = some r := by
  rw [equals_iff_order]
  constructor
  · rintro (⟨rfl, rfl⟩ | h)
    · exact ⟨.nothing, rfl, rfl⟩
    · obtain ⟨r, s, ha, hb, hrs⟩ := exists_rank_of_order h
      obtain ⟨rfl, -⟩ := Rank.order_eq_some_eq_iff.1 hrs
      exact ⟨r, ha, hb⟩
  · rintro ⟨r, ha, hb⟩
    by_cases hr : r = .nothing
    · subst hr
      exact .inl ⟨eq_nil_of_rank ha, eq_nil_of_rank hb⟩
    · rw [order_of_rank ha hb]
      exact .inr (Rank.order_eq_some_eq_iff.2 ⟨rfl, hr⟩)

theorem equals_iff_of_rank (ha : a.rank? = some r) (hb : b.rank? = some s) :
    a.equals b = true ↔ r = s := by
  rw [equals_iff, ha, hb]
  simp [eq_comm]

theorem equals_of_order {o : Ordering} (h : a.order b = some o) : a.equals b = (o == .eq) := by
  rw [Bool.eq_iff_iff, equals_iff_order, h]
  simp only [Option.some.injEq, beq_iff_eq, or_iff_right_iff_imp]
  rintro ⟨rfl, rfl⟩
  cases h

theorem equals_symm (h : a.equals b = true) : b.equals a = true := by
  obtain ⟨r, ha, hb⟩ := (equals_iff a b).1 h
  exact (equals_iff b a).2 ⟨r, hb, ha⟩

theorem equals_trans {c : Value} (h : a.equals b = true) (h' : b.equals c = true) :
    a.equals c = true := by
  obtain ⟨r, ha, hb⟩ := (equals_iff a b).1 h
  obtain ⟨s, hb', hc⟩ := (equals_iff b c).1 h'
  exact (equals_iff a c).2 ⟨r, ha, (hb'.symm.trans hb) ▸ hc⟩

theorem order_congr (h : a.equals b = true) (c : Value) : a.order c = b.order c := by
  obtain ⟨r, ha, hb⟩ := (equals_iff a b).1 h
  rw [order_eq_rank, order_eq_rank, ha, hb]

/-- The two are numbers, of either type, or strings, or truth values. -/
def Comparable (a b : Value) : Prop :=
  (a.type ∈ [ValueType.int, .real] ∧ b.type ∈ [ValueType.int, .real]) ∨
  (a.type = .string ∧ b.type = .string) ∨ (a.type = .bool ∧ b.type = .bool)

/-- The types alone decide if there is an ordering. -/
theorem comparable_iff (ha : ¬a.IsNaN) (hb : ¬b.IsNaN) :
    a.Comparable b ↔ ∃ o, a.order b = some o := by
  obtain ⟨r, hr⟩ := exists_rank ha
  obtain ⟨s, hs⟩ := exists_rank hb
  have htype := type_mem_types hr
  have htype' := type_mem_types hs
  rw [order_of_rank hr hs, ← Option.ne_none_iff_exists']
  unfold Comparable
  cases r <;> cases s <;> grind [Rank.types, Rank.order]

end Value

/-! ### Answers of the operators -/

namespace BinaryOp

/-- The operator gives the answer, on whichever line it stands. -/
def Answers (op : BinaryOp) (a b : Value) (answer : Bool) : Prop :=
  ∀ line, op.apply a b line = .ok (.bool answer)

def Holds (op : BinaryOp) (a b : Value) : Prop := op.Answers a b true

/-- The operator rejects the operands for their types. -/
def Refuses (op : BinaryOp) (a b : Value) : Prop :=
  ∀ line, op.apply a b line = .error (.typeMismatch op.kind a.type b.type line)

def orderings : List BinaryOp := [less, lessEqual, greater, greaterEqual]

variable {op : BinaryOp} {accepts : Ordering → Bool} {a b c : Value} {o : Ordering}

theorem apply_less : less.apply = less.ordering (· == .lt) := rfl

theorem apply_lessEqual : lessEqual.apply = lessEqual.ordering (· != .gt) := rfl

theorem apply_greater : greater.apply = greater.ordering (· == .gt) := rfl

theorem apply_greaterEqual : greaterEqual.apply = greaterEqual.ordering (· != .lt) := rfl

theorem exists_accepts (h : op ∈ orderings) : ∃ accepts, op.apply = op.ordering accepts := by
  simp only [orderings, List.mem_cons, List.not_mem_nil, or_false] at h
  rcases h with rfl | rfl | rfl | rfl
  · exact ⟨_, apply_less⟩
  · exact ⟨_, apply_lessEqual⟩
  · exact ⟨_, apply_greater⟩
  · exact ⟨_, apply_greaterEqual⟩

theorem answers_of_order (hop : op.apply = op.ordering accepts) (h : a.order b = some o) :
    op.Answers a b (accepts o) := by
  intro line
  rw [hop, ordering, h]

theorem refuses_of_order (hop : op.apply = op.ordering accepts) (h : a.order b = none) :
    op.Refuses a b := by
  intro line
  rw [hop, ordering, h]
  rfl

theorem holds_iff (hop : op.apply = op.ordering accepts) :
    op.Holds a b ↔ ∃ o, a.order b = some o ∧ accepts o = true := by
  cases h : a.order b with
  | none =>
      have hrefuses : ∀ line, op.apply a b line = .error _ := refuses_of_order hop h
      simp [Holds, Answers, hrefuses]
  | some o => simp [Holds, Answers, answers_of_order hop h _]

theorem holds_less_iff : less.Holds a b ↔ a.order b = some .lt := by
  rw [holds_iff apply_less]
  simp

theorem holds_greater_iff : greater.Holds a b ↔ a.order b = some .gt := by
  rw [holds_iff apply_greater]
  simp

theorem holds_lessEqual_iff :
    lessEqual.Holds a b ↔ a.order b = some .lt ∨ a.order b = some .eq := by
  rw [holds_iff apply_lessEqual]
  cases a.order b with
  | none => simp
  | some o => cases o <;> simp

theorem holds_greaterEqual_iff :
    greaterEqual.Holds a b ↔ a.order b = some .gt ∨ a.order b = some .eq := by
  rw [holds_iff apply_greaterEqual]
  cases a.order b with
  | none => simp
  | some o => cases o <;> simp

theorem holds_equal_iff : equal.Holds a b ↔ a.equals b = true := by
  simp [Holds, Answers, apply]

theorem answers_equal (a b : Value) : equal.Answers a b (a.equals b) := fun _ => rfl

theorem answers_notEqual (a b : Value) : notEqual.Answers a b !a.equals b := fun _ => rfl

/-- Of the three outcomes of an ordering, one operator each holds on one. -/
theorem exactly_one_of_order (h : a.order b = some o) :
    less.Answers a b (o == .lt) ∧ equal.Answers a b (o == .eq) ∧
      greater.Answers a b (o == .gt) := by
  refine ⟨(answers_of_order apply_less h :), ?_, (answers_of_order apply_greater h :)⟩
  rw [← Value.equals_of_order h]
  exact answers_equal a b

/-- The laws of an order, for three values. -/
structure Coherent (a b c : Value) : Prop where
  equal_refl : equal.Holds a a
  equal_symm : equal.Holds a b → equal.Holds b a
  equal_trans : equal.Holds a b → equal.Holds b c → equal.Holds a c
  negation : ∃ answer, equal.Answers a b answer ∧ notEqual.Answers a b !answer
  answered : a.Comparable b → ∀ op ∈ orderings, ∃ answer, op.Answers a b answer
  refused : ¬a.Comparable b → ∀ op ∈ orderings, op.Refuses a b
  /-- The three operators hold on one outcome each, and there is one outcome. -/
  exactly_one : a.Comparable b → ∃ o : Ordering,
    less.Answers a b (o == .lt) ∧ equal.Answers a b (o == .eq) ∧ greater.Answers a b (o == .gt)
  lessEqual_iff : a.Comparable b →
    (lessEqual.Holds a b ↔ less.Holds a b ∨ equal.Holds a b)
  greaterEqual_iff : greaterEqual.Holds a b ↔ lessEqual.Holds b a
  greater_iff : greater.Holds a b ↔ less.Holds b a
  less_trans : less.Holds a b → less.Holds b c → less.Holds a c
  less_of_equal : equal.Holds a b → less.Holds b c → less.Holds a c

/-- That a value equals itself, and that the types decide which values are ordered, is
where the undefined real makes a difference. The other laws do not need the ranks of
the values that they are about to exist. -/
theorem Coherent.of_not_isNaN (ha : ¬a.IsNaN) (hb : ¬b.IsNaN) (c : Value) :
    Coherent a b c := by
  have hcomparable := Value.comparable_iff ha hb
  have hswap := Value.order_swap a b
  constructor
  case equal_refl =>
    obtain ⟨r, hr⟩ := Value.exists_rank ha
    exact holds_equal_iff.2 ((Value.equals_iff a a).2 ⟨r, hr, hr⟩)
  case equal_symm =>
    rw [holds_equal_iff, holds_equal_iff]
    exact Value.equals_symm
  case equal_trans =>
    rw [holds_equal_iff, holds_equal_iff, holds_equal_iff]
    exact Value.equals_trans
  case negation => exact ⟨a.equals b, answers_equal a b, answers_notEqual a b⟩
  case answered =>
    intro h op hop
    obtain ⟨accepts, haccepts⟩ := exists_accepts hop
    obtain ⟨o, ho⟩ := hcomparable.1 h
    exact ⟨accepts o, answers_of_order haccepts ho⟩
  case refused =>
    intro h op hop
    obtain ⟨accepts, haccepts⟩ := exists_accepts hop
    apply refuses_of_order haccepts
    exact Option.eq_none_iff_forall_ne_some.2 fun o ho => h (hcomparable.2 ⟨o, ho⟩)
  case exactly_one =>
    intro h
    obtain ⟨o, ho⟩ := hcomparable.1 h
    exact ⟨o, exactly_one_of_order ho⟩
  case lessEqual_iff =>
    intro h
    obtain ⟨o, ho⟩ := hcomparable.1 h
    rw [holds_lessEqual_iff, holds_less_iff, holds_equal_iff, Value.equals_of_order ho, ho]
    simp
  case greaterEqual_iff =>
    rw [holds_greaterEqual_iff, holds_lessEqual_iff, ← hswap]
    simp
  case greater_iff =>
    rw [holds_greater_iff, holds_less_iff, ← hswap]
    simp
  case less_trans =>
    rw [holds_less_iff, holds_less_iff, holds_less_iff]
    exact Value.order_trans
  case less_of_equal =>
    rw [holds_equal_iff, holds_less_iff, holds_less_iff]
    intro h h'
    rw [Value.order_congr h, h']

theorem answers_of_isNaN (h : a.IsNaN ∨ b.IsNaN) :
    equal.Answers a b false ∧ notEqual.Answers a b true ∧ ∀ op ∈ orderings, op.Refuses a b := by
  have horder : a.order b = none := by
    refine Option.eq_none_iff_forall_ne_some.2 fun o ho => ?_
    obtain ⟨r, s, ha, hb, -⟩ := Value.exists_rank_of_order ho
    exact h.elim (Value.not_isNaN_of_rank ha) (Value.not_isNaN_of_rank hb)
  have hequals : a.equals b = false := by
    refine Bool.eq_false_iff.2 fun htrue => ?_
    obtain ⟨r, ha, hb⟩ := (Value.equals_iff a b).1 htrue
    exact h.elim (Value.not_isNaN_of_rank ha) (Value.not_isNaN_of_rank hb)
  refine ⟨?_, ?_, fun op hop => ?_⟩
  · rw [← hequals]
    exact answers_equal a b
  · rw [← Bool.not_false, ← hequals]
    exact answers_notEqual a b
  · obtain ⟨accepts, haccepts⟩ := exists_accepts hop
    exact refuses_of_order haccepts horder

theorem holds_iff_of_number {p q : Exact.Line} (ha : a.rank? = some (.number p))
    (hb : b.rank? = some (.number q)) :
    (less.Holds a b ↔ p < q) ∧ (equal.Holds a b ↔ p = q) := by
  constructor
  · rw [holds_less_iff, Value.order_of_rank ha hb, Rank.order, Option.some_inj, cmp_eq_lt_iff]
  · rw [holds_equal_iff, Value.equals_iff_of_rank ha hb, Rank.number.injEq]

theorem holds_less_str_iff (s t : String) :
    less.Holds (.str s) (.str t) ↔ s.toList.map Char.toNat < t.toList.map Char.toNat := by
  have hmono : StrictMono (List.map Char.toNat) := fun _ _ h => List.map_lt (fun _ _ h => h) h
  rw [holds_less_iff, hmono.lt_iff_lt, ← String.lt_iff_toList_lt]
  show some (compare s t) = some .lt ↔ s < t
  rw [Option.some_inj, compare_lt_iff_lt]

/-- The comparison operators obey the laws of one order on all values but the undefined
real, which is equal to no value, itself included, and ordered with none. Numbers are
ordered by their exact value, strings by code point. -/
theorem comparisons_cohere :
    (∀ a b c : Value, ¬a.IsNaN → ¬b.IsNaN → ¬c.IsNaN → Coherent a b c) ∧
    (∀ (a b : Value) (p q : Exact.Line), a.rank? = some (.number p) →
      b.rank? = some (.number q) → (less.Holds a b ↔ p < q) ∧ (equal.Holds a b ↔ p = q)) ∧
    (∀ s t : String, less.Holds (.str s) (.str t) ↔
      s.toList.map Char.toNat < t.toList.map Char.toNat) ∧
    ∀ a b : Value, a.IsNaN ∨ b.IsNaN →
      equal.Answers a b false ∧ notEqual.Answers a b true ∧ ∀ op ∈ orderings, op.Refuses a b :=
  ⟨fun _ _ c ha hb _ => .of_not_isNaN ha hb c, fun _ _ _ _ => holds_iff_of_number,
    holds_less_str_iff, fun _ _ => answers_of_isNaN⟩

/-- `2 ^ 53` as an integer equals the real of that value, which is below `2 ^ 53 + 1`,
an integer that no real has the value of. -/
theorem comparisons_cohere_beyond_reals :
    let a : Value := .int 9007199254740992
    let b : Value := .real (Float.ofBits 0x4340000000000000)
    let c : Value := .int 9007199254740993
    let nan : Value := .real (Float.ofBits 0x7ff8000000000000)
    ¬a.IsNaN ∧ ¬b.IsNaN ∧ ¬c.IsNaN ∧ nan.IsNaN ∧
    b.rank? = some (.number (Exact.place (2 ^ 53))) ∧
    c.rank? = some (.number (Exact.place (2 ^ 53 + 1))) ∧
    equal.Holds a b ∧ less.Holds b c ∧ less.Holds a c ∧ equal.Answers nan nan false := by
  intro a b c nan
  have hreal : Exact.ofFloat (Float.ofBits 0x4340000000000000) = .finite false (2 ^ 52) 1 := by
    decide
  have hundefined : Exact.ofFloat (Float.ofBits 0x7ff8000000000000) = .nan := by decide
  have ha : a.rank? = some (.number (Exact.place (2 ^ 53))) := by
    have hint : (9007199254740992 : Int64).toInt = 2 ^ 53 := by decide
    rw [Value.rank?, hint]
    norm_num
  have hb : b.rank? = some (.number (Exact.place (2 ^ 53))) := by
    simp only [b, Value.rank?, hreal, Exact.value?, Option.map_some]
    norm_num [Exact.rational, Exact.signed]
  have hc : c.rank? = some (.number (Exact.place (2 ^ 53 + 1))) := by
    have hint : (9007199254740993 : Int64).toInt = 2 ^ 53 + 1 := by decide
    rw [Value.rank?, hint]
    norm_num
  have hna := Value.not_isNaN_of_rank ha
  have hnb := Value.not_isNaN_of_rank hb
  have hnc := Value.not_isNaN_of_rank hc
  obtain ⟨hcoherent, hnumbers, -, hnone⟩ := comparisons_cohere
  have hab : equal.Holds a b := (hnumbers a b _ _ ha hb).2.2 rfl
  have hbc : less.Holds b c := (hnumbers b c _ _ hb hc).1.2 (Exact.strictMono_place (by norm_num))
  exact ⟨hna, hnb, hnc, hundefined, hb, hc, hab, hbc,
    (hcoherent a b c hna hnb hnc).less_of_equal hab hbc, (hnone nan nan (.inl hundefined)).1⟩

end BinaryOp

end Quill
