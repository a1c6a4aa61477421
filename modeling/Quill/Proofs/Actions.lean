import Quill.Proofs.Effects

/-!
What is done to a world. There is not much of it: frames are added and dropped, names are
declared and written to, lines are printed and files loaded. `Performs` reads off a
computation which of these it does, one after the other, be it that it gives a value in the
end or that it fails.

The world after a computation is the world before it with just these things done to it
(`Performs.world_eq`). So nothing else happens to a world, and nothing that has been done is
undone when a fault leaves blocks on its way out.
-/

namespace Quill

/-! ### Actions -/

/-- What can be done to an environment. -/
inductive Env.Action
  | push
  | pop
  | declare (name : String)
  | write (name : String) (value : Value)

namespace Env.Action

/-- A write that does not find its name changes nothing. -/
def apply (a : Action) (e : Env) : Env :=
  match a with
  | push => e.push
  | pop => e.pop
  | declare name => e.declare name
  | write name value => (e.write? name value).getD e

/-- One action after another. -/
def applyAll (as : List Action) (e : Env) : Env := as.foldl (fun e a => a.apply e) e

end Env.Action

namespace Eval

variable {H : Type}

/-- What can be done to a world. A host that is given a line, or is asked for a file, has
its own way of dealing with it. -/
inductive Action
  | env (a : Env.Action)
  | print (text : String)
  | load (path : String)

namespace Action

def apply [HostLike H] (a : Action) (w : World H) : World H :=
  match a with
  | env a => { w with env := a.apply w.env }
  | print text => { w with host := (HostLike.print w.host text).2 }
  | load path => { w with host := (HostLike.load w.host path).2 }

/-- One action after another. -/
def applyAll [HostLike H] (as : List Action) (w : World H) : World H :=
  as.foldl (fun w a => a.apply w) w

def onEnv? : Action → Option Env.Action
  | env a => some a
  | _ => none

def line? : Action → Option String
  | print text => some text
  | _ => none

/-- What concerns the environment. -/
def onEnv (as : List Action) : List Env.Action := as.filterMap onEnv?

/-- The lines that the host is given to print. -/
def lines (as : List Action) : List String := as.filterMap line?

theorem applyAll_append [HostLike H] (as bs : List Action) (w : World H) :
    applyAll (as ++ bs) w = applyAll bs (applyAll as w) :=
  List.foldl_append

/-- To the environment the host makes no difference. -/
theorem env_applyAll [HostLike H] (as : List Action) (w : World H) :
    (applyAll as w).env = Env.Action.applyAll (onEnv as) w.env := by
  induction as generalizing w with
  | nil => rfl
  | cons a as ih => cases a <;> exact ih _

/-- An output that takes all lines has them behind those from before. -/
theorem output_applyAll (as : List Action) {w : World} (hw : w.host.cutoff = none) :
    (applyAll as w).host.output = w.host.output ++ lines as := by
  induction as generalizing w with
  | nil => simp [applyAll, lines]
  | cons a as ih =>
      cases a with
      | env a => exact ih hw
      | load path => exact ih hw
      | print text =>
          have happly : (print text).apply w = { w with host := w.host.record text } := by
            simp only [apply, HostLike.print, Host.print_of_cutoff hw]
          have hrest := @ih { w with host := w.host.record text } hw
          change (applyAll as ((print text).apply w)).host.output = _
          rw [happly, hrest]
          simp [Host.record, lines, line?]

end Action

/-! ### Computations -/

/-- From this world the computation does these things, one after the other, be it that it
gives a value in the end or that it fails. -/
inductive Performs [HostLike H] : {α : Type} → Eval H α → World H → List Action → Prop
  | pure {α : Type} (a : α) (w : World H) : Performs (pure a) w []
  | fail {α : Type} (f : Fault) (w : World H) : Performs (fail f : Eval H α) w []
  | andThen {α β : Type} {x : Eval H α} {f : α → Eval H β} {a : α} {w v : World H}
      {as bs : List Action} (hx : Performs x w as) (hdone : x w = .done a v)
      (hf : Performs (f a) v bs) : Performs (x >>= f) w (as ++ bs)
  | stop {α β : Type} {x : Eval H α} {f : α → Eval H β} {e : Fault} {w v : World H}
      {as : List Action} (hx : Performs x w as) (hfault : x w = .fault e v) :
      Performs (x >>= f) w as
  | declare (name : String) (w : World H) : Performs (declare name) w [.env (.declare name)]
  | read (name : String) (w : World H) : Performs (read name) w []
  | write (name : String) (value : Value) (w : World H) :
      Performs (write name value) w [.env (.write name value)]
  | inFrame {x : Eval H Unit} {w : World H} {as : List Action}
      (hx : Performs x { w with env := w.env.push } as) :
      Performs (inFrame x) w (.env .push :: as ++ [.env .pop])
  | print (text : String) (line : Nat) (w : World H) : Performs (print text line) w [.print text]
  | loadFile (path : String) (w : World H) : Performs (loadFile path) w [.load path]

variable [HostLike H]

/-- Whatever ends has done something or other, and nothing but such things. -/
theorem Built.exists_performs {α : Type} {x : Eval H α} (hx : Built x) {w v : World H}
    (h : (x w).world? = some v) : ∃ as, Performs x w as := by
  induction hx generalizing w v with
  | pure a => exact ⟨_, .pure a w⟩
  | fail f => exact ⟨_, .fail f w⟩
  | outOfFuel => cases h
  | @bind _ _ x f _ _ ihx ihf =>
      cases hx : x w with
      | done a u =>
          obtain ⟨as, has⟩ := ihx (w := w) (by rw [hx]; rfl)
          have hrest : (f a u).world? = some v := by
            simpa only [Bind.bind, hx] using h
          obtain ⟨bs, hbs⟩ := ihf a hrest
          exact ⟨_, .andThen has hx hbs⟩
      | fault e u =>
          obtain ⟨as, has⟩ := ihx (w := w) (by rw [hx]; rfl)
          exact ⟨_, .stop has hx⟩
      | exhausted =>
          simp only [Bind.bind, hx] at h
          cases h
  | declare name => exact ⟨_, .declare name w⟩
  | read name => exact ⟨_, .read name w⟩
  | write name value => exact ⟨_, .write name value w⟩
  | inFrame _ ih =>
      obtain ⟨u, hu, -⟩ := world?_inFrame h
      obtain ⟨as, has⟩ := ih hu
      exact ⟨_, .inFrame has⟩
  | print text line => exact ⟨_, .print text line w⟩
  | loadFile path => exact ⟨_, .loadFile path w⟩

/-- What a computation does is all that happens to the world, and it stays done, also where
the computation fails. -/
theorem Performs.world_eq {α : Type} {x : Eval H α} {w : World H} {as : List Action}
    (hx : Performs x w as) {v : World H} (h : (x w).world? = some v) :
    v = Action.applyAll as w := by
  induction hx generalizing v with
  | pure a w =>
      cases h
      rfl
  | fail f w =>
      cases h
      rfl
  | andThen _ hdone _ ihx ihf =>
      simp only [Bind.bind, hdone] at h
      rw [Action.applyAll_append, ← ihx (by rw [hdone]; rfl), ihf h]
  | stop _ hfault ih =>
      simp only [Bind.bind, hfault] at h
      exact ih (by rw [hfault]; exact h)
  | declare name w =>
      cases h
      rfl
  | read name w => exact world?_read h
  | write name value w =>
      change v = { w with env := (w.env.write? name value).getD w.env }
      unfold Eval.write at h
      cases hwrite : w.env.write? name value with
      | none =>
          rw [hwrite] at h
          cases h
          rfl
      | some env =>
          rw [hwrite] at h
          cases h
          rfl
  | @inFrame x w as _ ih =>
      obtain ⟨u, hu, rfl⟩ := world?_inFrame h
      change _ = Action.applyAll (as ++ [.env .pop]) { w with env := w.env.push }
      rw [Action.applyAll_append, ← ih hu]
      rfl
  | print text line w => exact world?_print h
  | loadFile path w => exact world?_loadFile h

end Eval

end Quill
