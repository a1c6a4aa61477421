import Quill.Proofs.Expressions

/-!
Integers as program text. The text of an integer is the text of an expression with this
value: a number, or a number with a minus sign in front, since a number itself has none.
The least integer is the exception, for without its sign it is no machine integer, so its
text cannot even be cut into tokens.

A program can put the text of an integer between other texts with `+` and execute what
comes out; the executed text is then the one with the integer written out in it.
-/

namespace Quill

open Eval Lexeme Grammar

variable {H : Type} [HostLike H]

/-! ### The expression for an integer -/

theorem toInt_neg_of_ne {n : Int64} (hn : n ≠ Int64.minValue) : (-n).toInt = -n.toInt := by
  have hne : n.toInt ≠ Int64.minValue.toInt := fun h => hn (Int64.toInt_inj.1 h)
  have hlow := n.minValue_le_toInt
  have hhigh := n.toInt_le
  rw [Int64.toInt_neg]
  rw [Int64.toInt_minValue] at hne hlow
  rw [Int64.toInt_maxValue] at hhigh
  exact Int.bmod_eq_of_le (by omega) (by omega)

/-- The expression that an integer is written as. -/
def Tree.integer (n : Int64) : Tree :=
  if n.toInt < 0 then .unary ⟨.minus, 1, none⟩ (.leaf ⟨.int, 1, some (.int (-n))⟩)
  else .leaf ⟨.int, 1, some (.int n)⟩

section

variable {n : Int64} (hn : n ≠ Int64.minValue)

include hn

theorem wellFormedExpression_integer : (Tree.integer n).WellFormedExpression := by
  unfold Tree.integer
  split
  · next hneg =>
      refine .unary (by decide) rfl (.leaf rfl ⟨-n, rfl, ?_⟩)
      rw [toInt_neg_of_ne hn]
      omega
  · next hneg => exact .leaf rfl ⟨n, rfl, Int.not_lt.1 hneg⟩

theorem text_integer : (Tree.integer n).text = (Value.int n).text := by
  unfold Tree.integer
  split
  · next hneg =>
      obtain ⟨m, hm⟩ := Int.eq_negSucc_of_lt_zero hneg
      have hleaf : (Token.mk .int 1 (some (.int (-n)))).text = toString (-n).toInt := rfl
      simp only [Tree.text, Tree.write, Tree.wrap, Tree.isOperation, Place.writeExpression, hleaf,
        toInt_neg_of_ne hn, Value.text, hm]
      rfl
  · rfl

theorem ends_integer (w : World H) : (Tree.integer n).Ends w (.done (.int n) w) := by
  have hleaf (m : Int64) : (Tree.leaf ⟨.int, 1, some (.int m)⟩).Ends w (.done (.int m) w) :=
    ⟨by simp, 1, rfl⟩
  unfold Tree.integer
  split
  · have hminus : (Token.mk .minus 1 none).kind ∈ [Kind.minus, .plus] := by decide
    have hunary := unary_int (-n) w hminus
    have hfit : toInt64? n.toInt = some n := (toInt64?_eq_some_iff _ _).2 rfl
    rw [if_pos rfl, toInt_neg_of_ne hn, Int.neg_neg, Outcome.fit, hfit] at hunary
    exact (hleaf (-n)).unary hunary (by simp)
  · exact hleaf n

end

/-! ### Its text in a program -/

/-- Trees that differ in lines only have the same values. -/
theorem Tree.Ends.of_unplaced {t u : Tree} (hunplaced : u.unplaced = t.unplaced) {a : Value}
    {w v : World H} (h : t.Ends w (.done a v)) : u.Ends w (.done a v) := by
  obtain ⟨-, n, hn⟩ := h
  have halike := alike_eval hunplaced n w
  rw [hn] at halike
  generalize ho : eval n u w = o at halike
  cases halike with
  | done _ _ => exact ⟨by simp, n, ho⟩

/-- A text has the value of a tree that it is read as, whatever the lines. -/
theorem ends_of_exists_ofText {source : String} {t : Tree}
    (hread : ∃ u, Tree.ofText source = .ok u ∧ u.unplaced = t.unplaced) {a : Value} {w v : World H}
    (h : t.Ends w (.done a v)) : Ends source w (.done a v) := by
  obtain ⟨u, hu, hunplaced⟩ := hread
  exact (ends_iff_of_ofText hu w _).2 (h.of_unplaced hunplaced)

/-- A keyword, the text of an expression and a semicolon. -/
theorem exists_ofText_simple {k : Kind} {make : Tree → Tree} (hk : Simple k make) {e : Tree}
    (he : e.WellFormedExpression) :
    ∃ u, Tree.ofText (k.text ++ " " ++ e.text ++ ";") = .ok u ∧
      u.unplaced = (make e).unplaced := by
  obtain ⟨w, hw, hreads⟩ := Tree.readsAt_write he [';'] (closes_cons (by decide) [])
  have hsemi : Reads [';'] [.bare .semi] [] := reads_punctuation (by decide) (.refl [])
  have hkey : k.isKeyword := by cases hk <;> rfl
  have hall : Reads (k.text ++ " " ++ e.text ++ ";").toList (.bare k :: w ++ [.bare .semi]) [] := by
    simpa [Tree.text] using reads_keyword hkey (hreads.trans hsemi)
  exact Tree.exists_ofText_of_reads hall (.one (.simple hk rfl hw rfl) rfl)

theorem Tree.Ends.print {e : Tree} {a : Value} {w v : World} (h : e.Ends w (.done a v))
    (hv : v.host.cutoff = none) :
    (Tree.print e).Ends w (.done .nil { v with host := v.host.record a.text }) := by
  obtain ⟨n, hn⟩ := h.exists_fuel
  refine ⟨by simp, n + 1, ?_⟩
  simp only [eval, Bind.bind, hn n (Nat.le_refl n), print_of_ok (Host.print_of_cutoff hv a.text)]
  rfl

/-- To execute a string is to run it as a text. -/
theorem ends_exec_iff {e : Tree} {s : String} {w v : World H} (h : e.Ends w (.done (.str s) v))
    (o : Outcome Value H) : (Tree.exec e).Ends w o ↔ Ends s v o := by
  obtain ⟨n, hn⟩ := h.exists_fuel
  have hexec (m : Nat) (hm : n ≤ m) : eval (m + 1) (.exec e) w = run m s v := by
    simp only [eval, Bind.bind, hn m hm]
    rfl
  -- The fuel of either run may be too little for the string itself, so it is raised first.
  constructor
  · rintro ⟨ho, m, rfl⟩
    refine ⟨ho, max n m, ?_⟩
    rw [← hexec _ (Nat.le_max_left n m)]
    exact eval_extends (Nat.le_succ_of_le (Nat.le_max_right n m)) _ w ho
  · rintro ⟨ho, m, rfl⟩
    refine ⟨ho, max n m + 1, ?_⟩
    rw [hexec _ (Nat.le_max_left n m)]
    exact run_extends (Nat.le_max_right n m) s v ho

/-- The texts with the value of the expression between them, joined by `+`. -/
def Tree.splice (line : Nat) (before : String) (e : Tree) (after : String) : Tree :=
  .binary ⟨.plus, line, none⟩
    (.binary ⟨.plus, line, none⟩ (.leaf ⟨.string, line, some (.str before)⟩) e)
    (.leaf ⟨.string, line, some (.str after)⟩)

theorem Tree.Ends.splice {e : Tree} {n : Int64} {w v : World H} (h : e.Ends w (.done (.int n) v))
    (line : Nat) (before after : String) :
    (Tree.splice line before e after).Ends w
      (.done (.str (before ++ (Value.int n).text ++ after)) v) := by
  have hleaf (s : String) (w : World H) :
      (Tree.leaf ⟨.string, line, some (.str s)⟩).Ends w (.done (.str s) w) := ⟨by simp, 1, rfl⟩
  have hfirst : (Tree.binary ⟨.plus, line, none⟩ (.leaf ⟨.string, line, some (.str before)⟩) e).Ends
      w (.done (.str (before ++ (Value.int n).text)) v) := (hleaf before w).binary h rfl (by simp)
  exact hfirst.binary (hleaf after v) rfl (by simp)

/-! ### Reading back -/

/-- A text that cannot be cut into tokens fails there. -/
theorem ends_of_lex_error {source : String} {f : Fault} (h : lex source = .error f) (w : World H) :
    Ends source w (.fault f w) := by
  refine ⟨by simp, 0, ?_⟩
  simp only [run, interpret, Tree.ofText, h]
  rfl

/-- What is left of the least integer without its sign is out of range. -/
theorem lex_least : ∀ before ∈ ["", "print "],
    lex (before ++ (Value.int Int64.minValue).text ++ ";") =
      .error (.lex "9223372036854775808" .outOfRange 1) := by
  decide +kernel

/-- The text of an integer reads back as the integer, the least one excepted. With a
semicolon behind it, it is a program whose value is the integer, and with `print` before it
a program that prints this same text, in every world. The text of the least integer is no
part of any of these programs: they fail as its numeral is out of range. And where a program
executes the text of an integer put between two others, it is the text with the integer
written out there that is run. -/
theorem ends_integer_text (n : Int64) (w : World) :
    (n ≠ Int64.minValue →
      Ends ((Value.int n).text ++ ";") w (.done (.int n) w) ∧
      (w.host.cutoff = none → Ends ("print " ++ (Value.int n).text ++ ";") w
        (.done .nil { w with host := w.host.record (Value.int n).text }))) ∧
    (n = Int64.minValue → ∀ before ∈ ["", "print "],
      Ends (before ++ (Value.int n).text ++ ";") w
        (.fault (.lex "9223372036854775808" .outOfRange 1) w)) ∧
    ∀ e v, e.Ends w (.done (.int n) v) → ∀ line before after o,
      (Tree.exec (.splice line before e after)).Ends w o ↔
        Ends (before ++ (Value.int n).text ++ after) v o := by
  refine ⟨fun hn => ?_, ?_, fun e v he line before after => ?_⟩
  · have hexpr := wellFormedExpression_integer hn
    have hends := ends_integer hn w
    have hvalue := ends_of_exists_ofText (Tree.exists_ofText_text_semi hexpr) hends
    have hprint (hw : w.host.cutoff = none) :=
      ends_of_exists_ofText (exists_ofText_simple .print hexpr) (hends.print hw)
    rw [text_integer hn] at hvalue hprint
    exact ⟨hvalue, hprint⟩
  · rintro rfl before hbefore
    exact ends_of_lex_error (lex_least before hbefore) w
  · exact ends_exec_iff (he.splice line before after)

/-- A negative number, which is also put behind `print` by a program, and the least one. -/
theorem ends_integer_text_negative :
    let w : World := ⟨⟨[[("x", .int (-5))]]⟩, ⟨fun _ => none, #["0"], none⟩⟩
    let v : World := ⟨w.env, ⟨fun _ => none, #["0", "-5"], none⟩⟩
    (-5 : Int64) ≠ Int64.minValue ∧ w.host.cutoff = none ∧
    Ends "-5;" w (.done (.int (-5)) w) ∧
    Ends "print -5;" w (.done .nil v) ∧
    (Tree.leaf ⟨.ident, 1, some (.str "x")⟩).Ends w (.done (.int (-5)) w) ∧
    (Tree.exec (.splice 1 "print " (.leaf ⟨.ident, 1, some (.str "x")⟩) ";")).Ends w
      (.done .nil v) ∧
    Ends "print -9223372036854775808;" w
      (.fault (.lex "9223372036854775808" .outOfRange 1) w) := by
  intro w v
  have hname : (Tree.leaf ⟨.ident, 1, some (.str "x")⟩).Ends w (.done (.int (-5)) w) :=
    ⟨by simp, 1, rfl⟩
  obtain ⟨htext, -, hsplice⟩ := ends_integer_text (-5) w
  obtain ⟨hvalue, hprint⟩ := htext (by decide)
  have hexec := (hsplice _ w hname 1 "print " ";" (.done .nil v)).2 (hprint rfl)
  exact ⟨by decide, rfl, hvalue, hprint rfl, hname, hexec,
    (ends_integer_text Int64.minValue w).2.1 rfl "print " (by simp)⟩

end Quill
