import Quill.Eval

/-!
Fuel is a bound and nothing else. `Extends x y` says that `y` ends wherever `x`
does, and alike; every way of putting computations together keeps it, so more
fuel extends an evaluation (`eval_extends`). In particular two amounts of fuel
that are both enough give the same outcome.
-/

namespace Quill

variable {H : Type}

namespace Eval

/-- The second computation ends wherever the first does, and alike. -/
def Extends {α : Type} (x y : Eval H α) : Prop :=
  ∀ w, x w ≠ .exhausted → y w = x w

variable {α β : Type}

theorem Extends.refl (x : Eval H α) : Extends x x := fun _ _ => rfl

theorem Extends.bind {x y : Eval H α} {f g : α → Eval H β} (hx : Extends x y)
    (hf : ∀ a, Extends (f a) (g a)) : Extends (x >>= f) (y >>= g) := by
  intro w h
  simp only [Bind.bind] at h ⊢
  cases hxw : x w with
  | exhausted => simp [hxw] at h
  | done a w' =>
      rw [hx w (by simp [hxw]), hxw]
      simp only [hxw] at h
      exact hf a w' h
  | fault f w' => rw [hx w (by simp [hxw]), hxw]

theorem Extends.inFrame {x y : Eval H Unit} (h : Extends x y) :
    Extends (Eval.inFrame x) (Eval.inFrame y) := by
  intro w hw
  simp only [Eval.inFrame] at hw ⊢
  cases hx : x { w with env := w.env.push } with
  | exhausted => simp [hx] at hw
  | done _ _ => rw [h _ (by simp [hx]), hx]
  | fault _ _ => rw [h _ (by simp [hx]), hx]

theorem Extends.sequence {f g : Tree → Eval H Value} (h : ∀ t, Extends (f t) (g t))
    (ts : List Tree) : Extends (Eval.sequence f ts) (Eval.sequence g ts) := by
  induction ts with
  | nil => exact .refl _
  | cons t ts ih => exact (h t).bind fun _ => ih

theorem Extends.interpret {f g : Tree → Eval H Value} (h : ∀ t, Extends (f t) (g t))
    (source : String) : Extends (Eval.interpret f source) (Eval.interpret g source) :=
  (Extends.refl _).bind h

end Eval

open Eval

/-- More fuel extends an evaluation. -/
theorem eval_extends [HostLike H] {n m : Nat} (h : n ≤ m) (t : Tree) :
    Extends (H := H) (eval n t) (eval m t) := by
  induction n generalizing m t with
  | zero => intro w hw; exact absurd rfl hw
  | succ n ih =>
      obtain ⟨m, rfl⟩ : ∃ k, m = k + 1 := ⟨m - 1, by omega⟩
      have ih := fun t => @ih m (by omega) t
      cases t with
      | scope body => exact (Extends.inFrame (.sequence ih body)).bind fun _ => .refl _
      | declare name => exact .refl _
      | define name init =>
          exact (Extends.refl _).bind fun _ => (Extends.refl _).bind fun _ =>
            (ih init).bind fun _ => .refl _
      | branch cond body =>
          refine (ih cond).bind fun v => ?_
          cases v.isTruthy with
          | false => exact .refl _
          | true => exact (ih body).bind fun _ => .refl _
      | loop cond body =>
          refine (ih cond).bind fun v => ?_
          cases v.isTruthy with
          | false => exact .refl _
          | true => exact (ih body).bind fun _ => ih _
      | print arg => exact (ih arg).bind fun _ => .refl _
      | load arg =>
          exact (ih arg).bind fun _ => (Extends.refl _).bind fun _ =>
            (Extends.refl _).bind fun _ => .interpret ih _
      | exec arg =>
          exact (ih arg).bind fun _ => (Extends.refl _).bind fun _ => .interpret ih _
      | assign name value => exact (ih value).bind fun _ => .refl _
      | binary op left right =>
          exact (ih left).bind fun _ => (ih right).bind fun _ => .refl _
      | unary op operand => exact (ih operand).bind fun _ => .refl _
      | leaf token => exact .refl _

/-- More fuel extends the run of a program text. -/
theorem run_extends [HostLike H] {n m : Nat} (h : n ≤ m) (source : String) :
    Extends (H := H) (run n source) (run m source) :=
  .interpret (eval_extends h) source

end Quill
