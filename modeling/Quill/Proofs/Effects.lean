import Quill.Eval.Fuel

/-!
What an evaluation is made of. However a tree looks, and whatever texts it loads
or executes on its way, evaluating it comes down to a handful of actions (bind a
name, read it, write to it, print, load a file, fail), put one after another or
run in a frame of their own. `Built` says this of a computation and
`built_eval` of every evaluation.

So a property of all evaluations needs no look at trees: it is proved of each
action and of the two ways of putting actions together, by induction on `Built`.
Two such inductions are done here once and for all. `Respected.of_built` is for
what one evaluation does to its world, and `Lockstep.of_built` for what two
evaluations of the same tree in different worlds have in common.
-/

namespace Quill

variable {H : Type}

namespace Eval

variable [HostLike H]

/-- Computations that consist of the actions on variables and the host. -/
inductive Built : {α : Type} → Eval H α → Prop
  | pure {α : Type} (a : α) : Built (pure a)
  | fail {α : Type} (f : Fault) : Built (fail f : Eval H α)
  | outOfFuel {α : Type} : Built (outOfFuel : Eval H α)
  | bind {α β : Type} {x : Eval H α} {f : α → Eval H β} (hx : Built x) (hf : ∀ a, Built (f a)) :
      Built (x >>= f)
  | declare (name : String) : Built (declare name)
  | read (name : String) : Built (read name)
  | write (name : String) (value : Value) : Built (write name value)
  | inFrame {x : Eval H Unit} (hx : Built x) : Built (inFrame x)
  | print (text : String) (line : Nat) : Built (print text line)
  | loadFile (path : String) : Built (loadFile path)

theorem built_ofExcept {α : Type} (r : Except Fault α) : Built (H := H) (ofExcept r) := by
  cases r with
  | ok a => exact .pure a
  | error f => exact .fail f

theorem built_identifier (t : Token) : Built (H := H) (identifier t) := by
  unfold identifier
  split
  · exact .pure _
  · exact .fail _

theorem built_leaf (t : Token) : Built (H := H) (leaf t) := by
  unfold leaf
  split
  · exact .pure _
  · exact .pure _
  · exact .pure _
  · exact .pure _
  · exact .bind (built_identifier t) .read
  · exact .fail _

theorem built_binary (op : Token) (a b : Value) : Built (H := H) (binary op a b) := by
  unfold binary
  split
  · exact built_ofExcept _
  · exact .fail _

theorem built_unary (op : Token) (a : Value) : Built (H := H) (unary op a) := by
  unfold unary
  split
  · exact built_ofExcept _
  · exact .fail _

theorem built_string (statement : Kind) (arg : Tree) (v : Value) :
    Built (H := H) (string statement arg v) := by
  cases v with
  | str s => exact .pure s
  | _ => exact .fail _

theorem built_sequence {step : Tree → Eval H Value} (h : ∀ t, Built (step t)) (ts : List Tree) :
    Built (Eval.sequence step ts) := by
  induction ts with
  | nil => exact .pure ()
  | cons t ts ih => exact .bind (h t) fun _ => ih

theorem built_interpret {step : Tree → Eval H Value} (h : ∀ t, Built (step t)) (source : String) :
    Built (interpret step source) :=
  .bind (built_ofExcept _) h

end Eval

open Eval

theorem built_eval [HostLike H] (n : Nat) (t : Tree) : Built (H := H) (eval n t) := by
  induction n generalizing t with
  | zero => exact .outOfFuel
  | succ n ih =>
      cases t with
      | scope body => exact .bind (.inFrame (built_sequence ih body)) fun _ => .pure _
      | declare name =>
          exact .bind (built_identifier name) fun x => .bind (.declare x) fun _ => .pure _
      | define name init =>
          exact .bind (built_identifier name) fun x => .bind (.declare x) fun _ =>
            .bind (ih init) fun v => .bind (.write x v) fun _ => .pure _
      | branch cond body =>
          refine .bind (ih cond) fun v => ?_
          split
          · exact .bind (ih body) fun _ => .pure _
          · exact .pure _
      | loop cond body =>
          refine .bind (ih cond) fun v => ?_
          split
          · exact .bind (ih body) fun _ => ih _
          · exact .pure _
      | print arg =>
          exact .bind (ih arg) fun v => .bind (.print v.text arg.line) fun _ => .pure _
      | load arg =>
          exact .bind (ih arg) fun v => .bind (built_string .kwLoad arg v) fun path =>
            .bind (.loadFile path) fun source => built_interpret ih source
      | exec arg =>
          exact .bind (ih arg) fun v => .bind (built_string .kwExec arg v) fun source =>
            built_interpret ih source
      | assign name value =>
          exact .bind (ih value) fun v => .bind (built_identifier name) fun x =>
            .bind (.write x v) fun _ => .pure _
      | binary op left right =>
          exact .bind (ih left) fun a => .bind (ih right) fun b => built_binary op a b
      | unary op operand => exact .bind (ih operand) fun a => built_unary op a
      | leaf token => exact built_leaf token

/-! ### How evaluations end -/

/-- Where an outcome leaves the world, be it a value or a fault. -/
def Outcome.world? {α : Type} : Outcome α H → Option (World H)
  | .done _ w => some w
  | .fault _ w => some w
  | .exhausted => none

/-- The evaluation of a tree from a world ends with this outcome, given fuel
enough. -/
def Tree.Ends [HostLike H] (t : Tree) (w : World H) (o : Outcome Value H) : Prop :=
  o ≠ .exhausted ∧ ∃ n, eval n t w = o

/-- An evaluation ends in one way only, whatever the fuel. -/
theorem Tree.Ends.unique [HostLike H] {t : Tree} {w : World H} {o p : Outcome Value H}
    (h : t.Ends w o) (h' : t.Ends w p) : o = p := by
  obtain ⟨ho, n, rfl⟩ := h
  obtain ⟨hp, m, rfl⟩ := h'
  rcases Nat.le_total n m with hle | hle
  · exact (eval_extends hle t w ho).symm
  · exact eval_extends hle t w hp

/-! ### What an evaluation leaves behind -/

namespace Host

/-- The host with a line put behind those it has printed. -/
def record (h : Host) (text : String) : Host := { h with output := h.output.push text }

theorem print_of_cutoff {h : Host} (hcutoff : h.cutoff = none) (text : String) :
    h.print text = .ok (h.record text) := by
  simp only [print, hcutoff, record]

theorem eq_record_of_print {h h' : Host} {text : String} (hprint : h.print text = .ok h') :
    h' = h.record text := by
  unfold print at hprint
  split at hprint
  · split at hprint <;> cases hprint
    rfl
  · cases hprint
    rfl

/-- A line is taken, or nothing changes. -/
theorem print_eq_record_or_eq (h : Host) (text : String) :
    (HostLike.print h text).2 = h.record text ∨ (HostLike.print h text).2 = h := by
  cases hprint : h.print text with
  | ok h' =>
      rw [← eq_record_of_print hprint]
      exact .inl (by simp only [HostLike.print, hprint])
  | error reason => exact .inr (by simp only [HostLike.print, hprint])

end Host

/-! A host in memory changes by the lines that it takes, and by nothing else. -/

namespace Eval

variable {w : World} {text path : String}

theorem print_of_ok {host : Host} (h : w.host.print text = .ok host) (line : Nat) :
    print text line w = .done () { w with host } := by
  simp only [print, HostLike.print, h]

theorem print_of_error {reason : String} (h : w.host.print text = .error reason) (line : Nat) :
    print text line w = .fault (.output reason line) w := by
  simp only [print, HostLike.print, h]

theorem loadFile_of_some {source : String} (h : w.host.files path = some source) :
    loadFile path w = .done source w := by
  simp only [loadFile, HostLike.load, h]

theorem loadFile_of_none (h : w.host.files path = none) :
    loadFile path w = .fault (.fileNotLoaded path) w := by
  simp only [loadFile, HostLike.load, h]

end Eval

namespace Eval

variable {α β : Type} {w w' : World H}

theorem world?_bind {x : Eval H α} {f : α → Eval H β} (h : ((x >>= f) w).world? = some w') :
    (x w).world? = some w' ∨ ∃ a v, x w = .done a v ∧ (f a v).world? = some w' := by
  simp only [Bind.bind] at h
  cases hx : x w with
  | done a v =>
      rw [hx] at h
      exact .inr ⟨a, v, rfl, h⟩
  | fault f v =>
      rw [hx] at h
      exact .inl h
  | exhausted =>
      rw [hx] at h
      cases h

/-- The frame is dropped on every way out. -/
theorem world?_inFrame {x : Eval H Unit} (h : (inFrame x w).world? = some w') :
    ∃ v, (x { w with env := w.env.push }).world? = some v ∧
      w' = { v with env := v.env.pop } := by
  unfold inFrame at h
  split at h
  · next v hx =>
      cases h
      exact ⟨v, by rw [hx]; rfl, rfl⟩
  · next f v hx =>
      cases h
      exact ⟨v, by rw [hx]; rfl, rfl⟩
  · cases h

theorem world?_read {name : String} (h : (read name w).world? = some w') : w' = w := by
  unfold read at h
  split at h <;> cases h <;> rfl

theorem world?_write {name : String} {value : Value}
    (h : (write name value w).world? = some w') :
    w' = w ∨ ∃ env, w.env.write? name value = some env ∧ w' = { w with env } := by
  unfold write at h
  split at h
  · next env hwrite =>
      cases h
      exact .inr ⟨env, hwrite, rfl⟩
  · cases h
    exact .inl rfl

/-- What becomes of a line is up to the host, and the host may have changed either way. -/
theorem print_cases [HostLike H] (text : String) (line : Nat) (w : World H) :
    (∃ host, HostLike.print w.host text = (.ok (), host) ∧
      print text line w = .done () { w with host }) ∨
    ∃ reason host, HostLike.print w.host text = (.error reason, host) ∧
      print text line w = .fault (.output reason line) { w with host } := by
  unfold print
  split
  · next host h => exact .inl ⟨host, h, rfl⟩
  · next reason host h => exact .inr ⟨reason, host, h, rfl⟩

theorem loadFile_cases [HostLike H] (path : String) (w : World H) :
    (∃ source host, HostLike.load w.host path = (some source, host) ∧
      loadFile path w = .done source { w with host }) ∨
    ∃ host, HostLike.load w.host path = (none, host) ∧
      loadFile path w = .fault (.fileNotLoaded path) { w with host } := by
  unfold loadFile
  split
  · next source host h => exact .inl ⟨source, host, h, rfl⟩
  · next host h => exact .inr ⟨host, h, rfl⟩

theorem world?_print [HostLike H] {text : String} {line : Nat}
    (h : (print text line w).world? = some w') :
    w' = { w with host := (HostLike.print w.host text).2 } := by
  rcases print_cases text line w with ⟨host, hhost, hprint⟩ | ⟨reason, host, hhost, hprint⟩
  all_goals
    rw [hprint] at h
    cases h
    rw [hhost]

theorem world?_loadFile [HostLike H] {path : String} (h : (loadFile path w).world? = some w') :
    w' = { w with host := (HostLike.load w.host path).2 } := by
  rcases loadFile_cases path w with ⟨source, host, hhost, hload⟩ | ⟨host, hhost, hload⟩
  all_goals
    rw [hload] at h
    cases h
    rw [hhost]

end Eval

/-- What is asked of a value and of a fault, each with the world it comes in; an
evaluation that does not end meets any demand. -/
def Outcome.Ensures {α : Type} (P : α → World H → Prop) (Q : Fault → World H → Prop) :
    Outcome α H → Prop
  | .done a w => P a w
  | .fault f w => Q f w
  | .exhausted => True

theorem Outcome.Ensures.mono {α : Type} {P P' : α → World H → Prop}
    {Q Q' : Fault → World H → Prop} {o : Outcome α H} (h : o.Ensures P Q)
    (hP : ∀ a w, P a w → P' a w) (hQ : ∀ f w, Q f w → Q' f w) : o.Ensures P' Q' := by
  cases o with
  | done a w => exact hP a w h
  | fault f w => exact hQ f w h
  | exhausted => exact trivial

namespace Eval

variable {α β : Type} {Q : Fault → World H → Prop} {w : World H}

theorem ensures_bind {P : α → World H → Prop} {P' : β → World H → Prop} {x : Eval H α}
    {f : α → Eval H β} (hx : (x w).Ensures P Q) (hf : ∀ a v, P a v → (f a v).Ensures P' Q) :
    ((x >>= f) w).Ensures P' Q := by
  simp only [Bind.bind]
  generalize x w = o at hx ⊢
  cases o with
  | done a v => exact hf a v hx
  | fault e v => exact hx
  | exhausted => exact trivial

theorem ensures_inFrame {P : Unit → World H → Prop} {x : Eval H Unit}
    (h : (x { w with env := w.env.push }).Ensures (fun a v => P a { v with env := v.env.pop })
      fun f v => Q f { v with env := v.env.pop }) : (inFrame x w).Ensures P Q := by
  simp only [inFrame]
  generalize x { w with env := w.env.push } = o at h ⊢
  cases o with
  | done a v => exact h
  | fault f v => exact h
  | exhausted => exact trivial

end Eval

/-- A relation between the world before and the world after that all actions
respect. What is done in a frame of its own counts from when the frame is added
to when it is dropped. -/
structure Respected [HostLike H] (R : World H → World H → Prop) : Prop where
  refl (w : World H) : R w w
  trans {w v u : World H} : R w v → R v u → R w u
  declare (w : World H) (name : String) : R w { w with env := w.env.declare name }
  write {w : World H} {name : String} {value : Value} {env : Env} :
    w.env.write? name value = some env → R w { w with env }
  print (w : World H) (text : String) : R w { w with host := (HostLike.print w.host text).2 }
  load (w : World H) (path : String) : R w { w with host := (HostLike.load w.host path).2 }
  frame {w v : World H} : R { w with env := w.env.push } v → R w { v with env := v.env.pop }

/-- A relation that all actions respect holds between start and end of whatever is
built from them. -/
theorem Respected.of_built [HostLike H] {R : World H → World H → Prop} (hR : Respected R) {α : Type}
    {x : Eval H α} (hx : Built x) {w w' : World H} (h : (x w).world? = some w') : R w w' := by
  induction hx generalizing w w' with
  | pure a =>
      cases h
      exact hR.refl w
  | fail f =>
      cases h
      exact hR.refl w
  | outOfFuel => cases h
  | bind _ _ ihx ihf =>
      rcases world?_bind h with hx | ⟨a, v, hx, hf⟩
      · exact ihx hx
      · exact hR.trans (ihx (by rw [hx]; rfl)) (ihf a hf)
  | declare name =>
      cases h
      exact hR.declare w name
  | read name =>
      rw [world?_read h]
      exact hR.refl w
  | write name value =>
      rcases world?_write h with rfl | ⟨env, hwrite, rfl⟩
      · exact hR.refl _
      · exact hR.write hwrite
  | inFrame _ ih =>
      obtain ⟨v, hv, rfl⟩ := world?_inFrame h
      exact hR.frame (ih hv)
  | print text line =>
      rw [world?_print h]
      exact hR.print w text
  | loadFile path =>
      rw [world?_loadFile h]
      exact hR.load w path

/-! ### Two evaluations side by side -/

/-- Two outcomes have the same result and leave worlds that are related. -/
inductive Outcome.Matches {α : Type} (R : World H → World H → Prop) :
    Outcome α H → Outcome α H → Prop
  | done (a : α) {w v : World H} (h : R w v) : Matches R (.done a w) (.done a v)
  | fault (f : Fault) {w v : World H} (h : R w v) : Matches R (.fault f w) (.fault f v)
  | exhausted : Matches R .exhausted .exhausted

theorem Outcome.Matches.mono {α : Type} {R S : World H → World H → Prop} {o p : Outcome α H}
    (h : Matches R o p) (hRS : ∀ w v, R w v → S w v) : Matches S o p := by
  cases h with
  | done a h => exact .done a (hRS _ _ h)
  | fault f h => exact .fault f (hRS _ _ h)
  | exhausted => exact .exhausted

/-- A relation between two worlds, given the number of frames that have been added
since the two were first compared, such that every action has the same result in
both and leads to worlds that are again related. -/
structure Lockstep [HostLike H] (R : Nat → World H → World H → Prop) : Prop where
  push {k : Nat} {w v : World H} (h : R k w v) :
    R (k + 1) { w with env := w.env.push } { v with env := v.env.push }
  pop {k : Nat} {w v : World H} (h : R (k + 1) w v) :
    R k { w with env := w.env.pop } { v with env := v.env.pop }
  declare {k : Nat} {w v : World H} (h : R k w v) (name : String) :
    Outcome.Matches (R k) (declare name w) (declare name v)
  read {k : Nat} {w v : World H} (h : R k w v) (name : String) :
    Outcome.Matches (R k) (read name w) (read name v)
  write {k : Nat} {w v : World H} (h : R k w v) (name : String) (value : Value) :
    Outcome.Matches (R k) (write name value w) (write name value v)
  print {k : Nat} {w v : World H} (h : R k w v) (text : String) (line : Nat) :
    Outcome.Matches (R k) (print text line w) (print text line v)
  loadFile {k : Nat} {w v : World H} (h : R k w v) (path : String) :
    Outcome.Matches (R k) (loadFile path w) (loadFile path v)

theorem Lockstep.of_built [HostLike H] {R : Nat → World H → World H → Prop} (hR : Lockstep R)
    {α : Type} {x : Eval H α} (hx : Built x) {k : Nat} {w v : World H} (h : R k w v) :
    Outcome.Matches (R k) (x w) (x v) := by
  induction hx generalizing k w v with
  | pure a => exact .done a h
  | fail f => exact .fault f h
  | outOfFuel => exact .exhausted
  | @bind _ _ x f _ _ ihx ihf =>
      have hx := ihx h
      simp only [Bind.bind]
      generalize x w = o at hx ⊢
      generalize x v = p at hx ⊢
      cases hx with
      | done a h' => exact ihf a h'
      | fault f h' => exact .fault f h'
      | exhausted => exact .exhausted
  | declare name => exact hR.declare h name
  | read name => exact hR.read h name
  | write name value => exact hR.write h name value
  | @inFrame x _ ih =>
      have hx := ih (hR.push h)
      simp only [Eval.inFrame]
      generalize x { w with env := w.env.push } = o at hx ⊢
      generalize x { v with env := v.env.push } = p at hx ⊢
      cases hx with
      | done _ h' => exact .done () (hR.pop h')
      | fault f h' => exact .fault f (hR.pop h')
      | exhausted => exact .exhausted
  | print text line => exact hR.print h text line
  | loadFile path => exact hR.loadFile h path

/-- Evaluations that match with every amount of fuel end alike. -/
theorem Tree.ends_of_matches [HostLike H] {R : World H → World H → Prop} {t : Tree} {w v : World H}
    (h : ∀ n, Outcome.Matches R (eval n t w) (eval n t v)) :
    ((∃ o, t.Ends w o) ↔ ∃ p, t.Ends v p) ∧
    ∀ o p, t.Ends w o → t.Ends v p → Outcome.Matches R o p := by
  have hne (n : Nat) : eval n t w ≠ .exhausted ↔ eval n t v ≠ .exhausted := by
    have hn := h n
    generalize eval n t w = o at hn ⊢
    generalize eval n t v = p at hn ⊢
    cases hn <;> simp
  refine ⟨⟨?_, ?_⟩, ?_⟩
  · rintro ⟨_, ho, n, rfl⟩
    exact ⟨_, (hne n).1 ho, n, rfl⟩
  · rintro ⟨_, hp, n, rfl⟩
    exact ⟨_, (hne n).2 hp, n, rfl⟩
  · rintro _ p ⟨ho, n, rfl⟩ hp
    have hv : t.Ends v (eval n t v) := ⟨(hne n).1 ho, n, rfl⟩
    rw [hp.unique hv]
    exact h n

end Quill
