import Quill.Proofs.Effects
import Quill.Proofs.WellFormed
import Quill.Session

/-!
What no program can break. A demand on values and one on worlds go together: the
values that operators are given come out of literals and out of the world, and
back into the world go values that literals and operators have made. If neither
the literals that a text can hold, nor the operators, nor the actions on the world
lead out of the demands, then nothing does (`Invariant.of_eval`), be it loaded or
executed, and be the evaluation one that fails.

A session is a sequence of such evaluations, each from where the one before has
left the world, so what holds of its first world holds of all that come after
(`Invariant.of_session`).
-/

namespace Quill

variable {H : Type}

/-- A word that is not reserved. -/
def IsName (s : String) : Prop :=
  Lexeme.IsWord s.toList ∧ ∀ k : Kind, k.isKeyword → k.text ≠ s

/-- Demands on values and on worlds that literals, operators and actions keep. Only
names are declared, only values as demanded are written, and only the texts of such
values are printed, but files hold what they will. -/
structure Invariant [HostLike H] (V : Value → Prop) (I : World H → Prop) : Prop where
  nil : V .nil
  bool (b : Bool) : V (.bool b)
  int (n : Int64) : V (.int n)
  str {s : String} : '"' ∉ s.toList → V (.str s)
  binary {op : BinaryOp} {a b c : Value} {line : Nat} :
    V a → V b → op.apply a b line = .ok c → V c
  unary {op : UnaryOp} {a b : Value} {line : Nat} : V a → op.apply a line = .ok b → V b
  push {w : World H} : I w → I { w with env := w.env.push }
  pop {w : World H} : I w → I { w with env := w.env.pop }
  declare {w : World H} {name : String} :
    I w → IsName name → I { w with env := w.env.declare name }
  read {w : World H} {name : String} {a : Value} : I w → w.env.read? name = some a → V a
  write {w : World H} {name : String} {a : Value} {env : Env} :
    I w → V a → w.env.write? name a = some env → I { w with env }
  print {w : World H} {a : Value} :
    I w → V a → I { w with host := (HostLike.print w.host a.text).2 }
  load {w : World H} (path : String) :
    I w → I { w with host := (HostLike.load w.host path).2 }

/-- The outcome has a result as demanded, or is a fault, and leaves a world as
demanded either way. -/
def Outcome.Meets {α : Type} (V : α → Prop) (I : World H → Prop) (o : Outcome α H) : Prop :=
  o.Ensures (fun a w => V a ∧ I w) fun _ w => I w

theorem Outcome.Meets.world {α : Type} {V : α → Prop} {I : World H → Prop} {o : Outcome α H}
    (h : o.Meets V I) {w : World H} (hw : o.world? = some w) : I w := by
  cases o with
  | done a v =>
      cases hw
      exact h.2
  | fault f v =>
      cases hw
      exact h
  | exhausted => cases hw

namespace Eval

/-- From a world as demanded the computation has an outcome as demanded. -/
def Keeps {α : Type} (V : α → Prop) (I : World H → Prop) (x : Eval H α) : Prop :=
  ∀ w, I w → (x w).Meets V I

variable {α β : Type} {V : Value → Prop} {I : World H → Prop}

theorem keeps_pure {P : α → Prop} {a : α} (ha : P a) : Keeps P I (pure a) :=
  fun _ hw => ⟨ha, hw⟩

theorem keeps_fail {P : α → Prop} (f : Fault) : Keeps P I (fail f) :=
  fun _ hw => hw

theorem keeps_bind {P : α → Prop} {P' : β → Prop} {x : Eval H α} {f : α → Eval H β}
    (hx : Keeps P I x) (hf : ∀ a, P a → Keeps P' I (f a)) : Keeps P' I (x >>= f) :=
  fun w hw => ensures_bind (hx w hw) fun a v hv => hf a hv.1 v hv.2

theorem keeps_ofExcept {P : α → Prop} {r : Except Fault α} (hr : ∀ a, r = .ok a → P a) :
    Keeps P I (ofExcept r) := by
  cases r with
  | ok a => exact keeps_pure (hr a rfl)
  | error f => exact keeps_fail f

theorem keeps_identifier {t : Token} (hkind : t.kind = .ident) (ht : t.WellFormed) :
    Keeps IsName I (identifier t) := by
  obtain ⟨kind, line, value⟩ := t
  subst hkind
  obtain ⟨s, rfl, hs⟩ := ht
  exact keeps_pure hs

theorem keeps_string (statement : Kind) (arg : Tree) (a : Value) :
    Keeps (fun _ => True) I (string statement arg a) := by
  cases a with
  | str s => exact keeps_pure trivial
  | _ => exact keeps_fail _

theorem keeps_sequence {step : Tree → Eval H Value} {ts : List Tree}
    (hstep : ∀ t ∈ ts, Keeps V I (step t)) : Keeps (fun _ => True) I (Eval.sequence step ts) := by
  induction ts with
  | nil => exact keeps_pure trivial
  | cons t ts ih =>
      exact keeps_bind (hstep t (by simp)) fun _ _ => ih fun u hu => hstep u (by simp [hu])

/-- Whatever the text is, what is parsed from it is well formed. -/
theorem keeps_interpret {step : Tree → Eval H Value}
    (hstep : ∀ t, t.WellFormed → Keeps V I (step t)) (source : String) :
    Keeps V I (interpret step source) :=
  keeps_bind (keeps_ofExcept fun _ => wellFormed_of_ofText) hstep

end Eval

open Eval

namespace Invariant

variable [HostLike H] {V : Value → Prop} {I : World H → Prop} (h : Invariant V I)
include h

theorem keeps_declare {name : String} (hname : IsName name) :
    Keeps (fun _ => True) I (Eval.declare name) :=
  fun _ hw => ⟨trivial, h.declare hw hname⟩

theorem keeps_read (name : String) : Keeps V I (Eval.read name) := by
  intro w hw
  unfold Eval.read
  cases hread : w.env.read? name with
  | some a => exact ⟨h.read hw hread, hw⟩
  | none => exact hw

theorem keeps_write (name : String) {a : Value} (ha : V a) :
    Keeps (fun _ => True) I (Eval.write name a) := by
  intro w hw
  unfold Eval.write
  cases hwrite : w.env.write? name a with
  | some env => exact ⟨trivial, h.write hw ha hwrite⟩
  | none => exact hw

theorem keeps_print {a : Value} (ha : V a) (line : Nat) :
    Keeps (fun _ => True) I (Eval.print a.text line) := by
  intro w hw
  have hkept := h.print hw ha
  rcases print_cases a.text line w with ⟨host, hhost, hprint⟩ | ⟨reason, host, hhost, hprint⟩
  all_goals
    rw [hhost] at hkept
    rw [hprint]
  · exact ⟨trivial, hkept⟩
  · exact hkept

theorem keeps_loadFile (path : String) :
    Keeps (fun _ => True) I (Eval.loadFile path) := by
  intro w hw
  have hkept := h.load path hw
  rcases loadFile_cases path w with ⟨source, host, hhost, hload⟩ | ⟨host, hhost, hload⟩
  all_goals
    rw [hhost] at hkept
    rw [hload]
  · exact ⟨trivial, hkept⟩
  · exact hkept

theorem keeps_inFrame {x : Eval H Unit} (hx : Keeps (fun _ => True) I x) :
    Keeps (fun _ => True) I (Eval.inFrame x) := by
  intro w hw
  refine ensures_inFrame ((hx _ (h.push hw)).mono ?_ fun _ _ hv => h.pop hv)
  exact fun _ _ hv => ⟨trivial, h.pop hv.2⟩

theorem keeps_leaf {t : Token} (ht : t.WellFormed) : Keeps V I (Eval.leaf t) := by
  unfold Eval.leaf
  split
  · exact keeps_pure (h.int _)
  · next s hkind hvalue =>
      unfold Token.WellFormed at ht
      rw [hkind, hvalue] at ht
      obtain ⟨_, ⟨⟩, hs⟩ := ht
      exact keeps_pure (h.str hs)
  · exact keeps_pure (h.bool true)
  · exact keeps_pure (h.bool false)
  · next hkind => exact keeps_bind (keeps_identifier hkind ht) fun x _ => h.keeps_read x
  · exact keeps_fail _

theorem keeps_binary (op : Token) {a b : Value} (ha : V a) (hb : V b) :
    Keeps V I (Eval.binary op a b) := by
  unfold Eval.binary
  split
  · exact keeps_ofExcept fun c => h.binary ha hb
  · exact keeps_fail _

theorem keeps_unary (op : Token) {a : Value} (ha : V a) : Keeps V I (Eval.unary op a) := by
  unfold Eval.unary
  split
  · exact keeps_ofExcept fun b => h.unary ha
  · exact keeps_fail _

/-- No program leads out of the demands. The induction is on the fuel, which also
counts the way into the texts that the program loads or executes. -/
theorem of_eval (n : Nat) {t : Tree} (ht : t.WellFormed) : Keeps V I (eval n t) := by
  induction n generalizing t with
  | zero => exact fun _ _ => trivial
  | succ n ih =>
      have hnil : Keeps V I (pure .nil) := keeps_pure h.nil
      have hexpr {e : Tree} (he : e.WellFormedExpression) : Keeps V I (eval n e) :=
        ih (.expression he)
      have htext (source : String) : Keeps V I (interpret (eval n) source) :=
        keeps_interpret (fun _ => ih) source
      cases ht with
      | scope hbody =>
          have hsequence := keeps_sequence fun t ht => ih (hbody t ht)
          exact keeps_bind (h.keeps_inFrame hsequence) fun _ _ => hnil
      | declare hkind hname =>
          exact keeps_bind (keeps_identifier hkind hname) fun x hx =>
            keeps_bind (h.keeps_declare hx) fun _ _ => hnil
      | define hkind hname hinit =>
          exact keeps_bind (keeps_identifier hkind hname) fun x hx =>
            keeps_bind (h.keeps_declare hx) fun _ _ => keeps_bind (hexpr hinit) fun a ha =>
              keeps_bind (h.keeps_write x ha) fun _ _ => hnil
      | branch hcond hbody =>
          refine keeps_bind (hexpr hcond) fun a _ => ?_
          split
          · exact keeps_bind (ih (.scope hbody)) fun _ _ => hnil
          · exact hnil
      | loop hcond hbody =>
          refine keeps_bind (hexpr hcond) fun a _ => ?_
          split
          · exact keeps_bind (ih (.scope hbody)) fun _ _ => ih (.loop hcond hbody)
          · exact hnil
      | print harg =>
          exact keeps_bind (hexpr harg) fun a ha => keeps_bind (h.keeps_print ha _) fun _ _ => hnil
      | load harg =>
          exact keeps_bind (hexpr harg) fun a _ => keeps_bind (keeps_string .kwLoad _ a)
            fun path _ => keeps_bind (h.keeps_loadFile path) fun source _ => htext source
      | exec harg =>
          exact keeps_bind (hexpr harg) fun a _ => keeps_bind (keeps_string .kwExec _ a)
            fun source _ => htext source
      | assign hkind hname hvalue =>
          exact keeps_bind (hexpr hvalue) fun a ha =>
            keeps_bind (keeps_identifier hkind hname) fun x _ =>
              keeps_bind (h.keeps_write x ha) fun _ _ => hnil
      | expression he =>
          cases he with
          | leaf _ htoken => exact h.keeps_leaf htoken
          | unary _ _ hoperand =>
              exact keeps_bind (hexpr hoperand) fun a ha => h.keeps_unary _ ha
          | binary _ _ hleft hright =>
              exact keeps_bind (hexpr hleft) fun a ha => keeps_bind (hexpr hright) fun b hb =>
                h.keeps_binary _ ha hb

end Invariant

/-! ### Sessions -/

namespace Session

/-- Lines given to a session one after another, each with what came of it, and the
worlds before the first and after the last. A line that fails does not end the
session, and neither does one that asks to leave; a line that never ends lets no
other follow. -/
inductive Goes [HostLike H] : World H → List (String × Outcome Reply H) → World H → Prop
  | nil (w : World H) : Goes w [] w
  | cons {w v u : World H} {line : String} {n : Nat} {o : Outcome Reply H}
      {steps : List (String × Outcome Reply H)} (hline : evalLine n line w = o)
      (hworld : o.world? = some v) (hrest : Goes v steps u) : Goes w ((line, o) :: steps) u

end Session

/-- The demand is met by the value that a reply shows, if it shows one. -/
def Reply.Shows (V : Value → Prop) : Reply → Prop
  | .value v => V v
  | _ => True

theorem Reply.shows_ofValue {V : Value → Prop} {a : Value} (ha : V a) :
    (Reply.ofValue a).Shows V := by
  cases a with
  | nil => exact trivial
  | _ => exact ha

namespace Invariant

variable [HostLike H] {V : Value → Prop} {I : World H → Prop} (h : Invariant V I)
include h

theorem of_line (n : Nat) (line : String) :
    Keeps (Reply.Shows V) I (Session.evalLine n line) := by
  unfold Session.evalLine
  split
  · exact keeps_pure trivial
  · exact keeps_pure trivial
  · exact fun w hw => ⟨trivial, hw⟩
  · have hrun := keeps_interpret (fun _ => h.of_eval n)
    exact keeps_bind (hrun _) fun a ha => keeps_pure (Reply.shows_ofValue ha)

/-- No session leads out of the demands, and every value it shows is as demanded. -/
theorem of_session {w u : World H} {steps : List (String × Outcome Reply H)}
    (hgoes : Session.Goes w steps u) (hw : I w) :
    I u ∧ ∀ step ∈ steps, step.2.Meets (Reply.Shows V) I := by
  induction hgoes with
  | nil w => exact ⟨hw, by simp⟩
  | @cons w v u line n o steps hline hworld _ ih =>
      have hmeets : o.Meets (Reply.Shows V) I := hline ▸ h.of_line n line w hw
      obtain ⟨hu, hsteps⟩ := ih (hmeets.world hworld)
      exact ⟨hu, List.forall_mem_cons.2 ⟨hmeets, hsteps⟩⟩

end Invariant

end Quill
