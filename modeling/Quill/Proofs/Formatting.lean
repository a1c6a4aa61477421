import Quill.Eval.Fuel
import Quill.Proofs.RoundTrip

/-!
Formatting a program does not change what it does. Printing and parsing give back
the tree with other lines, and evaluation passes lines on to faults and does
nothing else with them: two computations that differ in the lines they carry end
alike, with the same value or with faults that differ in their lines, and in the
same world either way. Every way of putting computations together keeps this.

What a program loads or executes is text on both sides, and the same text, so the
two runs meet again there.
-/

namespace Quill

/-- A fault without the line it names. -/
def Fault.unplaced : Fault → Fault
  | lex text reason _ => lex text reason 0
  | parse expected found _ => parse expected found 0
  | nameNotFound name => nameNotFound name
  | fileNotLoaded path => fileNotLoaded path
  | output reason _ => output reason 0
  | typeMismatch op left right _ => typeMismatch op left right 0
  | badOperand op found _ => badOperand op found 0
  | expectedString statement found _ => expectedString statement found 0
  | divisionByZero _ => divisionByZero 0
  | overflow op _ => overflow op 0

variable {H : Type}

/-- Two outcomes are the same, except that faults may name different lines. -/
inductive Outcome.Alike {α : Type} : Outcome α H → Outcome α H → Prop
  | done (a : α) (w : World H) : Alike (.done a w) (.done a w)
  | fault {f g : Fault} (h : f.unplaced = g.unplaced) (w : World H) :
      Alike (.fault f w) (.fault g w)
  | exhausted : Alike .exhausted .exhausted

namespace Outcome.Alike

variable {α : Type}

theorem refl (o : Outcome α H) : Alike o o := by
  cases o with
  | done a w => exact .done a w
  | fault f w => exact .fault rfl w
  | exhausted => exact .exhausted

theorem symm {o p : Outcome α H} (h : Alike o p) : Alike p o := by
  cases h with
  | done a w => exact .done a w
  | fault h w => exact .fault h.symm w
  | exhausted => exact .exhausted

theorem trans {o p q : Outcome α H} (h : Alike o p) (h' : Alike p q) : Alike o q := by
  cases h with
  | done a w => exact h'
  | fault h w =>
      cases h' with
      | fault h' _ => exact .fault (h.trans h') w
  | exhausted => exact h'

theorem ne_exhausted_iff {o p : Outcome α H} (h : Alike o p) : o ≠ .exhausted ↔ p ≠ .exhausted := by
  cases h <;> simp

end Outcome.Alike

/-! ### Computations -/

namespace Eval

/-- From every world the two computations end alike, or neither ends. -/
def Alike {α : Type} (x y : Eval H α) : Prop := ∀ w, Outcome.Alike (x w) (y w)

variable {α β : Type}

theorem Alike.refl (x : Eval H α) : Alike x x := fun w => .refl (x w)

theorem Alike.symm {x y : Eval H α} (h : Alike x y) : Alike y x := fun w => (h w).symm

theorem Alike.trans {x y z : Eval H α} (h : Alike x y) (h' : Alike y z) : Alike x z :=
  fun w => (h w).trans (h' w)

theorem Alike.fail {f g : Fault} (h : f.unplaced = g.unplaced) :
    Alike (Eval.fail f : Eval H α) (Eval.fail g) := fun w => .fault h w

theorem Alike.bind {x y : Eval H α} {f g : α → Eval H β} (hx : Alike x y)
    (hf : ∀ a, Alike (f a) (g a)) : Alike (x >>= f) (y >>= g) := by
  intro w
  have h := hx w
  simp only [Bind.bind]
  generalize x w = o at h ⊢
  generalize y w = p at h ⊢
  cases h with
  | done a w' => exact hf a w'
  | fault h w' => exact .fault h w'
  | exhausted => exact .exhausted

theorem Alike.inFrame {x y : Eval H Unit} (h : Alike x y) :
    Alike (Eval.inFrame x) (Eval.inFrame y) := by
  intro w
  have h := h { w with env := w.env.push }
  simp only [Eval.inFrame]
  generalize x { w with env := w.env.push } = o at h ⊢
  generalize y { w with env := w.env.push } = p at h ⊢
  cases h with
  | done a w' => exact .done () _
  | fault h w' => exact .fault h _
  | exhausted => exact .exhausted

theorem Alike.sequence {f : Tree → Eval H Value} {g : Tree → Tree}
    (h : ∀ t, Alike (f (g t)) (f t)) (ts : List Tree) :
    Alike (Eval.sequence f (ts.map g)) (Eval.sequence f ts) := by
  induction ts with
  | nil => exact .refl _
  | cons t ts ih => exact (h t).bind fun _ => ih

theorem alike_print [HostLike H] (text : String) (line line' : Nat) :
    Alike (H := H) (print text line) (print text line') := by
  intro w
  simp only [print]
  obtain ⟨r, host⟩ := HostLike.print w.host text
  cases r with
  | ok => exact .refl _
  | error reason =>
      have h : (Fault.output reason line).unplaced = (Fault.output reason line').unplaced := rfl
      exact .fault h { w with host }

theorem alike_string (statement : Kind) (arg arg' : Tree) (v : Value) :
    Alike (H := H) (string statement arg v) (string statement arg' v) := by
  cases v with
  | str s => exact .refl _
  | _ => exact .fail rfl

/-! ### Tokens and operators -/

theorem alike_identifier (t : Token) : Alike (H := H) (identifier t.unplaced) (identifier t) := by
  have hname : t.unplaced.name? = t.name? := rfl
  unfold identifier
  rw [hname]
  cases t.name? with
  | some name => exact .refl _
  | none => exact .fail rfl

theorem alike_leaf (t : Token) : Alike (H := H) (leaf t.unplaced) (leaf t) := by
  have hkind : t.unplaced.kind = t.kind := rfl
  have hvalue : t.unplaced.value = t.value := rfl
  unfold leaf
  rw [hkind, hvalue]
  split
  · exact .refl _
  · exact .refl _
  · exact .refl _
  · exact .refl _
  · exact (alike_identifier t).bind fun _ => .refl _
  · exact .fail rfl

theorem alike_arithmetic (op : BinaryOp) (exact : Int → Int → Int)
    (rounded : Float → Float → Float) (a b : Value) (line line' : Nat) :
    Alike (H := H) (ofExcept (op.arithmetic exact rounded a b line))
      (ofExcept (op.arithmetic exact rounded a b line')) := by
  unfold BinaryOp.arithmetic
  split
  · split
    · exact .refl _
    · exact .fail rfl
  · split
    · exact .refl _
    · exact .fail rfl

theorem alike_divide (op : BinaryOp) (a b : Value) (line line' : Nat) :
    Alike (H := H) (ofExcept (op.divide a b line)) (ofExcept (op.divide a b line')) := by
  unfold BinaryOp.divide
  split
  · split
    · exact .fail rfl
    · exact .refl _
  · exact .fail rfl

theorem alike_ordering (op : BinaryOp) (accepts : Ordering → Bool) (a b : Value)
    (line line' : Nat) :
    Alike (H := H) (ofExcept (op.ordering accepts a b line))
      (ofExcept (op.ordering accepts a b line')) := by
  unfold BinaryOp.ordering
  split
  · exact .refl _
  · exact .fail rfl

theorem alike_apply (op : BinaryOp) (a b : Value) (line line' : Nat) :
    Alike (H := H) (ofExcept (op.apply a b line)) (ofExcept (op.apply a b line')) := by
  cases op with
  | add =>
      simp only [BinaryOp.apply]
      split
      · exact .refl _
      · exact .refl _
      · exact .refl _
      · exact alike_arithmetic _ _ _ _ _ _ _
  | sub => exact alike_arithmetic _ _ _ _ _ _ _
  | mul => exact alike_arithmetic _ _ _ _ _ _ _
  | div => exact alike_divide _ _ _ _ _
  | equal => exact .refl _
  | notEqual => exact .refl _
  | less => exact alike_ordering _ _ _ _ _ _
  | lessEqual => exact alike_ordering _ _ _ _ _ _
  | greater => exact alike_ordering _ _ _ _ _ _
  | greaterEqual => exact alike_ordering _ _ _ _ _ _

theorem alike_binary (op : Token) (a b : Value) :
    Alike (H := H) (binary op.unplaced a b) (binary op a b) := by
  have hkind : op.unplaced.kind = op.kind := rfl
  unfold binary
  rw [hkind]
  cases BinaryOp.ofKind? op.kind with
  | some o => exact alike_apply o a b _ _
  | none => exact .fail rfl

theorem alike_unary (op : Token) (a : Value) :
    Alike (H := H) (unary op.unplaced a) (unary op a) := by
  have hkind : op.unplaced.kind = op.kind := rfl
  unfold unary
  rw [hkind]
  cases UnaryOp.ofKind? op.kind with
  | none => exact .fail rfl
  | some o =>
      cases o with
      | neg =>
          simp only [UnaryOp.apply]
          split
          · split
            · exact .refl _
            · exact .fail rfl
          · exact .refl _
          · exact .fail rfl
      | not => exact .refl _
      | plus => exact .refl _

end Eval

open Eval

variable [HostLike H]

/-- Evaluation minds lines in faults only. -/
theorem alike_eval_unplaced (n : Nat) (t : Tree) :
    Alike (H := H) (eval n t.unplaced) (eval n t) := by
  unfold Tree.unplaced
  induction n generalizing t with
  | zero => exact .refl _
  | succ n ih =>
      cases t with
      | scope body =>
          rw [Tree.mapTokens, Tree.mapTokensAll_eq_map]
          exact (Alike.inFrame (.sequence ih body)).bind fun _ => .refl _
      | declare name =>
          rw [Tree.mapTokens]
          exact (alike_identifier name).bind fun _ => .refl _
      | define name init =>
          rw [Tree.mapTokens]
          exact (alike_identifier name).bind fun _ => (Alike.refl _).bind fun _ =>
            (ih init).bind fun _ => .refl _
      | branch cond body =>
          rw [Tree.mapTokens]
          refine (ih cond).bind fun v => ?_
          cases v.isTruthy with
          | false => exact .refl _
          | true => exact (ih body).bind fun _ => .refl _
      | loop cond body =>
          -- The next round is the same loop with less fuel, so it is covered as a whole.
          have hloop := ih (.loop cond body)
          rw [Tree.mapTokens] at hloop ⊢
          refine (ih cond).bind fun v => ?_
          cases v.isTruthy with
          | false => exact .refl _
          | true => exact (ih body).bind fun _ => hloop
      | print arg =>
          rw [Tree.mapTokens]
          exact (ih arg).bind fun v => (alike_print v.text _ _).bind fun _ => .refl _
      | load arg =>
          rw [Tree.mapTokens]
          -- From the path on the two sides are one and the same computation.
          exact (ih arg).bind fun v => (alike_string .kwLoad _ arg v).bind fun _ => .refl _
      | exec arg =>
          rw [Tree.mapTokens]
          exact (ih arg).bind fun v => (alike_string .kwExec _ arg v).bind fun _ => .refl _
      | assign name value =>
          rw [Tree.mapTokens]
          exact (ih value).bind fun _ => (alike_identifier name).bind fun _ => .refl _
      | binary op left right =>
          rw [Tree.mapTokens]
          exact (ih left).bind fun a => (ih right).bind fun b => alike_binary op a b
      | unary op operand =>
          rw [Tree.mapTokens]
          exact (ih operand).bind fun a => alike_unary op a
      | leaf token =>
          rw [Tree.mapTokens]
          exact alike_leaf token

theorem alike_eval {t u : Tree} (h : t.unplaced = u.unplaced) (n : Nat) :
    Alike (H := H) (eval n t) (eval n u) := by
  -- Both are compared with the tree that has no lines at all.
  have ht := alike_eval_unplaced (H := H) n t
  rw [h] at ht
  exact ht.symm.trans (alike_eval_unplaced n u)

/-! ### Runs -/

theorem run_of_ofText {source : String} {t : Tree} (h : Tree.ofText source = .ok t) (n : Nat) :
    run (H := H) n source = eval n t := by
  simp only [run, interpret, h]
  rfl

theorem SameBlame.unplaced_eq {e e' : Fault} (h : SameBlame Token.unplaced e e') :
    e.unplaced = e'.unplaced := by
  cases h with
  | nothing e => rfl
  | token e t => rfl
  | tree t mark =>
      have htext : (t.mapTokens Token.unplaced).text = t.text := t.text_unplaced
      rw [Fault.unplaced, Fault.unplaced, htext]

/-- Reading tokens and going on with their tree minds lines in faults only. -/
theorem alike_ofTokens_unplaced (n : Nat) (ts : List Token) :
    Alike (H := H) (ofExcept (Tree.ofTokens ts) >>= eval n)
      (ofExcept (Tree.ofTokens (ts.map Token.unplaced)) >>= eval n) := by
  have hagree := agree_ofTokens_map Token.kind_unplaced ts
  generalize Tree.ofTokens ts = r at hagree ⊢
  generalize Tree.ofTokens (ts.map Token.unplaced) = r' at hagree ⊢
  cases hagree with
  | ok h =>
      subst h
      exact (alike_eval_unplaced n _).symm
  | error h => exact .fail h.unplaced_eq

/-- Texts whose tokens differ in lines only do the same. -/
theorem alike_run_of_unplaced {s s' : String} {ts us : List Token} (hs : lex s = .ok ts)
    (hs' : lex s' = .ok us) (h : us.map Token.unplaced = ts.map Token.unplaced) (n : Nat) :
    Alike (H := H) (run n s') (run n s) := by
  have hmiddle := alike_ofTokens_unplaced (H := H) n us
  rw [h] at hmiddle
  have hends := hmiddle.trans (alike_ofTokens_unplaced n ts).symm
  simpa only [run, interpret, Tree.ofText, hs, hs'] using hends

/-- The run of a text from a world ends with this outcome, given fuel enough. -/
def Ends (source : String) (w : World H) (o : Outcome Value H) : Prop :=
  o ≠ .exhausted ∧ ∃ n, run n source w = o

/-- A run ends in one way only, whatever the fuel. -/
theorem Ends.unique {source : String} {w : World H} {o p : Outcome Value H} (h : Ends source w o)
    (h' : Ends source w p) : o = p := by
  obtain ⟨ho, n, rfl⟩ := h
  obtain ⟨hp, m, rfl⟩ := h'
  rcases Nat.le_total n m with hle | hle
  · exact (run_extends hle source w ho).symm
  · exact run_extends hle source w hp

/-- Runs that are alike with any amount of fuel end alike. -/
theorem exists_ends_of_alike {s s' : String} (h : ∀ n, Alike (H := H) (run n s) (run n s'))
    {w : World H} {o : Outcome Value H} (ho : Ends s w o) :
    ∃ p, Ends s' w p ∧ Outcome.Alike o p := by
  obtain ⟨hne, n, rfl⟩ := ho
  have halike := h n w
  exact ⟨_, ⟨halike.ne_exhausted_iff.1 hne, n, rfl⟩, halike⟩

/-- A program and its formatted text do the same. One run ends if and only if the
other does, and then with the same value or with faults that differ in their line
at most, and in the same world. -/
theorem run_program {source : String} {t : Tree} (h : Tree.ofText source = .ok t) (w : World H) :
    ((∃ o, Ends t.program w o) ↔ ∃ o, Ends source w o) ∧
    ∀ o p, Ends t.program w o → Ends source w p → Outcome.Alike o p := by
  obtain ⟨u, hu, hunplaced⟩ := Tree.exists_ofText_program (wellFormed_of_ofText h)
  have halike (n : Nat) : Alike (H := H) (run n t.program) (run n source) := by
    rw [run_of_ofText hu, run_of_ofText h]
    exact alike_eval hunplaced n
  have hforth {o : Outcome Value H} (ho : Ends t.program w o) := exists_ends_of_alike halike ho
  have hback {o : Outcome Value H} (ho : Ends source w o) :=
    exists_ends_of_alike (fun n => (halike n).symm) ho
  refine ⟨⟨?_, ?_⟩, ?_⟩
  · rintro ⟨o, ho⟩
    obtain ⟨p, hp, -⟩ := hforth ho
    exact ⟨p, hp⟩
  · rintro ⟨o, ho⟩
    obtain ⟨p, hp, -⟩ := hback ho
    exact ⟨p, hp⟩
  · intro o p ho hp
    obtain ⟨q, hq, hoq⟩ := hforth ho
    rwa [hq.unique hp] at hoq

theorem run_program_mismatch :
    let w : World := .initial (.ofFiles fun _ => none)
    Ends "\ntrue+1;" w (.fault (.typeMismatch .plus .bool .int 2) w) ∧
    ∃ line, Ends "true + 1;\n" w (.fault (.typeMismatch .plus .bool .int line) w) := by
  intro w
  have hlex : lex "\ntrue+1;" = .ok [⟨.kwTrue, 2, none⟩, ⟨.plus, 2, none⟩,
      ⟨.int, 2, some (.int 1)⟩, ⟨.semi, 2, none⟩, ⟨.eof, 2, none⟩] := by decide +kernel
  have htree : Tree.ofText "\ntrue+1;" = .ok (.binary ⟨.plus, 2, none⟩ (.leaf ⟨.kwTrue, 2, none⟩)
      (.leaf ⟨.int, 2, some (.int 1)⟩)) := Tree.ofText_eq_ok_iff.2 ⟨_, hlex, rfl⟩
  have hends : Ends "\ntrue+1;" w (.fault (.typeMismatch .plus .bool .int 2) w) := by
    refine ⟨by simp, 2, ?_⟩
    rw [run_of_ofText htree]
    rfl
  obtain ⟨hiff, halike⟩ := run_program htree w
  obtain ⟨o, ho⟩ := hiff.2 ⟨_, hends⟩
  refine ⟨hends, ?_⟩
  cases halike o _ ho hends with
  | @fault f g h w =>
      cases f <;> cases h
      exact ⟨_, ho⟩

end Quill
