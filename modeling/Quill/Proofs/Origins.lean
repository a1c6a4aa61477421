import Quill.Proofs.ErrorPosition
import Quill.Proofs.FreeNames
import Quill.Proofs.WellFormed

/-!
Where faults come from. To evaluate a tree is to evaluate parts of it, in worlds
that the parts before have left behind, and now and then a program that `load` or
`exec` has been given as text. `Visits` follows an evaluation into these, and every
fault is raised by some tree on the way, at its root and with its parts done
(`exists_raises`).

A tree that was parsed is well formed, and all trees that it leads to are, so the
faults of malformed trees do not arise in this way, at whatever depth. What is left
of faults to lex or to parse are those of the texts themselves.
-/

namespace Quill

open Eval

variable {H : Type}

namespace Tree

variable [HostLike H]

/-- The tree is a statement that hands this text over to be run in this world. What a
file holds is what the host answers when it is asked, in the world of the moment. -/
inductive Hands : Tree → World H → String → World H → Prop
  | load {arg : Tree} {path source : String} {w v : World H} {host : H}
      (harg : arg.Ends w (.done (.str path) v))
      (hfile : HostLike.load v.host path = (some source, host)) :
      Hands (.load arg) w source { v with host }
  | exec {arg : Tree} {source : String} {w v : World H}
      (harg : arg.Ends w (.done (.str source) v)) : Hands (.exec arg) w source v

/-- To evaluate the first tree from the first world one has to evaluate the second
from the second. -/
inductive Enters : Tree → World H → Tree → World H → Prop
  | member {before after : List Tree} {t : Tree} {w v : World H} {n : Nat}
      (hbefore : Eval.sequence (eval n) before { w with env := w.env.push } = .done () v) :
      Enters (.scope (before ++ t :: after)) w t v
  | init {name : Token} {x : String} {init : Tree} {w : World H} (hname : name.name? = some x) :
      Enters (.define name init) w init { w with env := w.env.declare x }
  | branchCond {cond body : Tree} {w : World H} : Enters (.branch cond body) w cond w
  | branchBody {cond body : Tree} {a : Value} {w v : World H}
      (hcond : cond.Ends w (.done a v)) (ha : a.isTruthy) : Enters (.branch cond body) w body v
  | loopCond {cond body : Tree} {w : World H} : Enters (.loop cond body) w cond w
  | loopBody {cond body : Tree} {a : Value} {w v : World H}
      (hcond : cond.Ends w (.done a v)) (ha : a.isTruthy) : Enters (.loop cond body) w body v
  | nextRound {cond body : Tree} {a b : Value} {w v u : World H}
      (hcond : cond.Ends w (.done a v)) (ha : a.isTruthy) (hbody : body.Ends v (.done b u)) :
      Enters (.loop cond body) w (.loop cond body) u
  | printed {arg : Tree} {w : World H} : Enters (.print arg) w arg w
  | path {arg : Tree} {w : World H} : Enters (.load arg) w arg w
  | text {arg : Tree} {w : World H} : Enters (.exec arg) w arg w
  | program {t u : Tree} {source : String} {w v : World H} (hands : Hands t w source v)
      (hsource : ofText source = .ok u) : Enters t w u v
  | value {name : Token} {value : Tree} {w : World H} : Enters (.assign name value) w value w
  | left {op : Token} {left right : Tree} {w : World H} : Enters (.binary op left right) w left w
  | right {op : Token} {left right : Tree} {a : Value} {w v : World H}
      (hleft : left.Ends w (.done a v)) : Enters (.binary op left right) w right v
  | operand {op : Token} {operand : Tree} {w : World H} : Enters (.unary op operand) w operand w

/-- The evaluation of the first tree leads to that of the second. -/
inductive Visits : Tree → World H → Tree → World H → Prop
  | here (t : Tree) (w : World H) : Visits t w t w
  | inside {t u r : Tree} {w v z : World H} (henters : Enters t w u v) (h : Visits u v r z) :
      Visits t w r z

/-- In the course of evaluating the tree this text is handed over to be run. -/
def HandsOver (t : Tree) (w : World H) (source : String) : Prop :=
  ∃ u v z, t.Visits w u v ∧ u.Hands v source z

/-- The fault is one that the root of the tree raises, its parts having been
evaluated. -/
inductive Raises : Tree → World H → Fault → Prop
  | declare {name : Token} {w : World H} (hname : name.name? = none) :
      Raises (.declare name) w (malformed .identifier name)
  | define {name : Token} {init : Tree} {w : World H} (hname : name.name? = none) :
      Raises (.define name init) w (malformed .identifier name)
  | target {name : Token} {value : Tree} {w : World H} (hname : name.name? = none) :
      Raises (.assign name value) w (malformed .identifier name)
  | unbound {name : Token} {x : String} {value : Tree} {a : Value} {w v : World H}
      (hname : name.name? = some x) (hvalue : value.Ends w (.done a v))
      (hwrite : v.env.write? x a = none) : Raises (.assign name value) w (.nameNotFound x)
  | output {arg : Tree} {reason : String} {w : World H} :
      Raises (.print arg) w (.output reason arg.line)
  | path {arg : Tree} {type : ValueType} {w : World H} :
      Raises (.load arg) w (.expectedString .kwLoad type arg.line)
  | text {arg : Tree} {type : ValueType} {w : World H} :
      Raises (.exec arg) w (.expectedString .kwExec type arg.line)
  | file {arg : Tree} {path : String} {w : World H} : Raises (.load arg) w (.fileNotLoaded path)
  | program {t : Tree} {source : String} {w v : World H} {f : Fault} (hands : Hands t w source v)
      (hsource : ofText source = .error f) : Raises t w f
  | binary {op : Token} {left right : Tree} {a b : Value} {w v v' : World H} {f : Fault}
      (h : Eval.binary op a b v = .fault f v') : Raises (.binary op left right) w f
  | unary {op : Token} {operand : Tree} {a : Value} {w v v' : World H} {f : Fault}
      (h : Eval.unary op a v = .fault f v') : Raises (.unary op operand) w f
  | leaf {token : Token} {w v : World H} {f : Fault} (h : Eval.leaf token w = .fault f v) :
      Raises (.leaf token) w f

end Tree

/-! ### Every fault is raised somewhere -/

namespace Eval

variable {α β : Type} {w w' : World H} {f : Fault}

theorem fault_of_bind {x : Eval H α} {g : α → Eval H β} (h : (x >>= g) w = .fault f w') :
    x w = .fault f w' ∨ ∃ a v, x w = .done a v ∧ g a v = .fault f w' := by
  simp only [Bind.bind] at h
  cases hx : x w with
  | done a v =>
      rw [hx] at h
      exact .inr ⟨a, v, rfl, h⟩
  | fault e v =>
      rw [hx] at h
      cases h
      exact .inl rfl
  | exhausted =>
      rw [hx] at h
      cases h

theorem fault_of_inFrame {x : Eval H Unit} (h : inFrame x w = .fault f w') :
    ∃ v, x { w with env := w.env.push } = .fault f v := by
  unfold inFrame at h
  split at h
  · cases h
  · next hx =>
      cases h
      exact ⟨_, hx⟩
  · cases h

/-- A sequence fails in one of its members, those before it being done. -/
theorem fault_of_sequence {step : Tree → Eval H Value} {ts : List Tree}
    (h : Eval.sequence step ts w = .fault f w') :
    ∃ before t after v, ts = before ++ t :: after ∧ Eval.sequence step before w = .done () v ∧
      step t v = .fault f w' := by
  induction ts generalizing w with
  | nil => cases h
  | cons t ts ih =>
      rcases fault_of_bind h with hhead | ⟨a, v, hhead, htail⟩
      · exact ⟨[], t, ts, w, rfl, rfl, hhead⟩
      · obtain ⟨before, u, after, z, rfl, hbefore, hu⟩ := ih htail
        refine ⟨t :: before, u, after, z, rfl, ?_, hu⟩
        simp only [Eval.sequence, Bind.bind, hhead, hbefore]

theorem fault_of_identifier {t : Token} (h : identifier t w = .fault f w') :
    t.name? = none ∧ f = malformed .identifier t := by
  unfold identifier at h
  cases hname : t.name? with
  | some x =>
      rw [hname] at h
      cases h
  | none =>
      rw [hname] at h
      cases h
      exact ⟨rfl, rfl⟩

theorem done_of_identifier {t : Token} {x : String} (h : identifier t w = .done x w') :
    t.name? = some x ∧ w' = w := by
  unfold identifier at h
  cases hname : t.name? with
  | some y =>
      rw [hname] at h
      cases h
      exact ⟨rfl, rfl⟩
  | none =>
      rw [hname] at h
      cases h

theorem fault_of_string {statement : Kind} {arg : Tree} {v : Value}
    (h : string statement arg v w = .fault f w') :
    ∃ type, f = .expectedString statement type arg.line := by
  cases v with
  | str s => cases h
  | _ =>
      cases h
      exact ⟨_, rfl⟩

theorem done_of_string {statement : Kind} {arg : Tree} {v : Value} {s : String}
    (h : string statement arg v w = .done s w') : v = .str s ∧ w' = w := by
  cases v with
  | str s =>
      cases h
      exact ⟨rfl, rfl⟩
  | _ => cases h

theorem fault_of_write {x : String} {a : Value} (h : write x a w = .fault f w') :
    f = .nameNotFound x ∧ w.env.write? x a = none := by
  unfold write at h
  split at h
  · cases h
  · next hwrite =>
      cases h
      exact ⟨rfl, hwrite⟩

theorem fault_of_read {x : String} (h : read x w = .fault f w') : f = .nameNotFound x := by
  unfold read at h
  split at h
  · cases h
  · cases h
    rfl

theorem fault_of_print [HostLike H] {text : String} {line : Nat}
    (h : print text line w = .fault f w') :
    ∃ reason, f = .output reason line := by
  rcases print_cases text line w with ⟨host, -, hprint⟩ | ⟨reason, host, -, hprint⟩
  · rw [hprint] at h
    cases h
  · rw [hprint] at h
    cases h
    exact ⟨reason, rfl⟩

theorem fault_of_loadFile [HostLike H] {path : String} (h : loadFile path w = .fault f w') :
    f = .fileNotLoaded path := by
  rcases loadFile_cases path w with ⟨source, host, -, hload⟩ | ⟨host, -, hload⟩
  · rw [hload] at h
    cases h
  · rw [hload] at h
    cases h
    rfl

theorem done_of_loadFile [HostLike H] {path source : String}
    (h : loadFile path w = .done source w') :
    ∃ host, HostLike.load w.host path = (some source, host) ∧ w' = { w with host } := by
  rcases loadFile_cases path w with ⟨source', host, hfile, hload⟩ | ⟨host, -, hload⟩
  · rw [hload] at h
    cases h
    exact ⟨host, hfile, rfl⟩
  · rw [hload] at h
    cases h

/-- A text fails to parse, or its program fails. -/
theorem fault_of_interpret {step : Tree → Eval H Value} {source : String}
    (h : interpret step source w = .fault f w') :
    Tree.ofText source = .error f ∨ ∃ t, Tree.ofText source = .ok t ∧ step t w = .fault f w' := by
  unfold interpret at h
  cases hsource : Tree.ofText source with
  | error e =>
      rw [hsource] at h
      cases h
      exact .inl rfl
  | ok t =>
      rw [hsource] at h
      exact .inr ⟨t, rfl, h⟩

end Eval

section

variable [HostLike H]

namespace Tree

/-- A tree that the evaluation leads to raises the fault. -/
def Origin (t : Tree) (w : World H) (f : Fault) : Prop := ∃ u v, t.Visits w u v ∧ u.Raises v f

theorem Raises.origin {t : Tree} {w : World H} {f : Fault} (h : t.Raises w f) : t.Origin w f :=
  ⟨t, w, .here t w, h⟩

theorem Origin.of_enters {t u : Tree} {w v : World H} {f : Fault} (h : u.Origin v f)
    (henters : t.Enters w u v) : t.Origin w f := by
  obtain ⟨r, z, hvisits, hraises⟩ := h
  exact ⟨r, z, .inside henters hvisits, hraises⟩

theorem ends_of_eval {n : Nat} {t : Tree} {w v : World H} {a : Value}
    (h : eval n t w = .done a v) : t.Ends w (.done a v) := ⟨by simp, n, h⟩

end Tree

/-- What has been declared can be written to once the initial value is there. -/
theorem write_ne_fault_of_declare {n : Nat} {init : Tree} {x : String} {w v v' : World H}
    {a : Value} {f : Fault} (h : eval n init { w with env := w.env.declare x } = .done a v) :
    write x a v ≠ .fault f v' := by
  have hgrown : Env.Grown (w.env.declare x) v.env :=
    grown_of_eval (n := n) (t := init) (by rw [h]; rfl)
  have hbinds := hgrown.binds (Env.binds_of_read? (by rw [Env.read?_declare, if_pos rfl]))
  have hwrite : v.env.write? x a ≠ none := by
    rw [ne_eq, Env.write?_eq_none_iff, Env.read?_eq_none_iff]
    exact not_not_intro hbinds
  obtain ⟨env, henv⟩ := Option.ne_none_iff_exists'.1 hwrite
  simp [write, henv]

theorem origin_of_hands {n : Nat} {t : Tree} {source : String} {w v w' : World H} {f : Fault}
    (ih : ∀ {t : Tree} {w w' : World H}, eval n t w = .fault f w' → t.Origin w f)
    (hands : t.Hands w source v) (h : interpret (eval n) source v = .fault f w') :
    t.Origin w f := by
  rcases fault_of_interpret h with herror | ⟨u, hok, hu⟩
  · exact (Tree.Raises.program hands herror).origin
  · exact (ih hu).of_enters (.program hands hok)

/-- Every fault is raised by a tree that the evaluation leads to. -/
theorem exists_raises {n : Nat} {t : Tree} {w w' : World H} {f : Fault}
    (h : eval n t w = .fault f w') : t.Origin w f := by
  induction n generalizing t w w' with
  | zero => cases h
  | succ n ih =>
      cases t with
      | scope body =>
          rcases fault_of_bind h with hframe | ⟨_, _, _, hnil⟩
          · obtain ⟨v, hbody⟩ := fault_of_inFrame hframe
            obtain ⟨before, u, after, z, rfl, hbefore, hu⟩ := fault_of_sequence hbody
            exact (ih hu).of_enters (.member hbefore)
          · cases hnil
      | declare name =>
          rcases fault_of_bind h with hname | ⟨x, v, _, hdeclare⟩
          · obtain ⟨hnone, rfl⟩ := fault_of_identifier hname
            exact (Tree.Raises.declare hnone).origin
          · cases hdeclare
      | define name init =>
          rcases fault_of_bind h with hname | ⟨x, v, hname, hdeclare⟩
          · obtain ⟨hnone, rfl⟩ := fault_of_identifier hname
            exact (Tree.Raises.define hnone).origin
          obtain ⟨hsome, rfl⟩ := done_of_identifier hname
          rcases fault_of_bind hdeclare with hfault | ⟨_, _, hdone, hinit⟩
          · cases hfault
          cases hdone
          rcases fault_of_bind hinit with hfault | ⟨a, z, hdone, hwrite⟩
          · exact (ih hfault).of_enters (.init hsome)
          rcases fault_of_bind hwrite with hfault | ⟨_, _, _, hnil⟩
          · exact absurd hfault (write_ne_fault_of_declare hdone)
          · cases hnil
      | branch cond body =>
          rcases fault_of_bind h with hcond | ⟨a, v, hcond, h⟩
          · exact (ih hcond).of_enters .branchCond
          split at h
          · next ha =>
              rcases fault_of_bind h with hbody | ⟨_, _, _, hnil⟩
              · exact (ih hbody).of_enters (.branchBody (Tree.ends_of_eval hcond) ha)
              · cases hnil
          · cases h
      | loop cond body =>
          rcases fault_of_bind h with hcond | ⟨a, v, hcond, h⟩
          · exact (ih hcond).of_enters .loopCond
          split at h
          · next ha =>
              have hcond := Tree.ends_of_eval hcond
              rcases fault_of_bind h with hbody | ⟨b, z, hbody, h⟩
              · exact (ih hbody).of_enters (.loopBody hcond ha)
              · exact (ih h).of_enters (.nextRound hcond ha (Tree.ends_of_eval hbody))
          · cases h
      | print arg =>
          rcases fault_of_bind h with harg | ⟨a, v, harg, h⟩
          · exact (ih harg).of_enters .printed
          rcases fault_of_bind h with hprint | ⟨_, _, _, hnil⟩
          · obtain ⟨reason, rfl⟩ := fault_of_print hprint
            exact Tree.Raises.output.origin
          · cases hnil
      | load arg =>
          rcases fault_of_bind h with hfault | ⟨a, v, harg, hstring⟩
          · exact (ih hfault).of_enters .path
          rcases fault_of_bind hstring with hfault | ⟨path, v', hdone, hload⟩
          · obtain ⟨type, rfl⟩ := fault_of_string hfault
            exact Tree.Raises.path.origin
          obtain ⟨rfl, rfl⟩ := done_of_string hdone
          rcases fault_of_bind hload with hfault | ⟨source, v'', hdone, hrun⟩
          · rw [fault_of_loadFile hfault]
            exact Tree.Raises.file.origin
          obtain ⟨host, hfile, rfl⟩ := done_of_loadFile hdone
          exact origin_of_hands ih (.load (Tree.ends_of_eval harg) hfile) hrun
      | exec arg =>
          rcases fault_of_bind h with hfault | ⟨a, v, harg, hstring⟩
          · exact (ih hfault).of_enters .text
          rcases fault_of_bind hstring with hfault | ⟨source, v', hdone, hrun⟩
          · obtain ⟨type, rfl⟩ := fault_of_string hfault
            exact Tree.Raises.text.origin
          obtain ⟨rfl, rfl⟩ := done_of_string hdone
          exact origin_of_hands ih (.exec (Tree.ends_of_eval harg)) hrun
      | assign name value =>
          rcases fault_of_bind h with hfault | ⟨a, v, hvalue, hname⟩
          · exact (ih hfault).of_enters .value
          rcases fault_of_bind hname with hfault | ⟨x, v', hdone, hwrite⟩
          · obtain ⟨hnone, rfl⟩ := fault_of_identifier hfault
            exact (Tree.Raises.target hnone).origin
          obtain ⟨hsome, rfl⟩ := done_of_identifier hdone
          rcases fault_of_bind hwrite with hfault | ⟨_, _, _, hnil⟩
          · obtain ⟨rfl, hnone⟩ := fault_of_write hfault
            exact (Tree.Raises.unbound hsome (Tree.ends_of_eval hvalue) hnone).origin
          · cases hnil
      | binary op left right =>
          rcases fault_of_bind h with hleft | ⟨a, v, hleft, h⟩
          · exact (ih hleft).of_enters .left
          rcases fault_of_bind h with hright | ⟨b, z, hright, h⟩
          · exact (ih hright).of_enters (.right (Tree.ends_of_eval hleft))
          · exact (Tree.Raises.binary h).origin
      | unary op operand =>
          rcases fault_of_bind h with hoperand | ⟨a, v, hoperand, h⟩
          · exact (ih hoperand).of_enters .operand
          · exact (Tree.Raises.unary h).origin
      | leaf token => exact (Tree.Raises.leaf h).origin

end

/-! ### Faults of well-formed trees -/

theorem Token.WellFormed.name?_ne_none {t : Token} (h : t.WellFormed) (hkind : t.kind = .ident) :
    t.name? ≠ none := by
  obtain ⟨k, line, value⟩ := t
  cases hkind
  obtain ⟨x, rfl, -⟩ := h
  simp [name?]

theorem BinaryOp.exists_ofKind? : ∀ k ∈ Tree.binaryKinds, ∃ o, BinaryOp.ofKind? k = some o := by
  have hall : ∀ k ∈ Tree.binaryKinds, (BinaryOp.ofKind? k).isSome := by decide
  exact fun k hk => Option.isSome_iff_exists.1 (hall k hk)

theorem UnaryOp.exists_ofKind? : ∀ k ∈ Parser.unaryKinds, ∃ o, UnaryOp.ofKind? k = some o := by
  have hall : ∀ k ∈ Parser.unaryKinds, (UnaryOp.ofKind? k).isSome := by decide
  exact fun k hk => Option.isSome_iff_exists.1 (hall k hk)

namespace Eval

variable {w w' : World H} {f : Fault}

theorem fault_of_binary {op : Token} {a b : Value} (hop : op.kind ∈ Tree.binaryKinds)
    (h : binary op a b w = .fault f w') :
    ∃ o, BinaryOp.ofKind? op.kind = some o ∧ o.Fails op.line f := by
  obtain ⟨o, ho⟩ := BinaryOp.exists_ofKind? op.kind hop
  refine ⟨o, ho, ?_⟩
  simp only [binary, ho] at h
  cases happly : o.apply a b op.line with
  | ok c =>
      rw [happly] at h
      cases h
  | error e =>
      rw [happly] at h
      cases h
      exact BinaryOp.fails_of_apply happly

theorem fault_of_unary {op : Token} {a : Value} (hop : op.kind ∈ Parser.unaryKinds)
    (h : unary op a w = .fault f w') :
    ∃ o, UnaryOp.ofKind? op.kind = some o ∧ o.Fails op.line f := by
  obtain ⟨o, ho⟩ := UnaryOp.exists_ofKind? op.kind hop
  refine ⟨o, ho, ?_⟩
  simp only [unary, ho] at h
  cases happly : o.apply a op.line with
  | ok c =>
      rw [happly] at h
      cases h
  | error e =>
      rw [happly] at h
      cases h
      exact UnaryOp.fails_of_apply happly

theorem fault_of_leaf {token : Token} (hkind : token.kind.isLiteral) (htoken : token.WellFormed)
    (h : leaf token w = .fault f w') : ∃ x, f = .nameNotFound x := by
  obtain ⟨kind, line, value⟩ := token
  cases kind with
  | int =>
      obtain ⟨n, rfl, -⟩ := htoken
      cases h
  | string =>
      obtain ⟨s, rfl, -⟩ := htoken
      cases h
  | kwTrue => cases h
  | kwFalse => cases h
  | ident =>
      obtain ⟨x, rfl, -⟩ := htoken
      refine ⟨x, ?_⟩
      rcases fault_of_bind h with hname | ⟨_, _, hname, hread⟩
      · cases hname
      · cases hname
        exact fault_of_read hread
  | _ => cases hkind

end Eval

/-- The faults that need no other text to arise. -/
def Fault.isPlain : Fault → Bool
  | nameNotFound _ | output _ _ | typeMismatch _ _ _ _ | badOperand _ _ _ | divisionByZero _
  | overflow _ _ => true
  | lex _ _ _ | parse _ _ _ | fileNotLoaded _ | expectedString _ _ _ => false

theorem Fault.stage_of_isPlain {f : Fault} (h : f.isPlain) : f.stage = .runtime := by
  cases f with
  | lex _ _ _ => cases h
  | parse _ _ _ => cases h
  | _ => rfl

namespace Tree

variable [HostLike H] {t u : Tree} {w v : World H} {f : Fault}

/-- A well-formed tree raises plain faults, unless it is a statement that works on
other texts. -/
theorem Raises.isPlain_or (h : t.Raises w f) (ht : t.WellFormed) :
    f.isPlain ∨ t.isSelfContained = false ∧
      (f.stage = .runtime ∨ ∃ source v, t.Hands w source v ∧ ofText source = .error f) := by
  cases h with
  | declare hname =>
      cases ht with
      | declare hkind htoken => exact absurd hname (htoken.name?_ne_none hkind)
      | expression he => cases he
  | define hname =>
      cases ht with
      | define hkind htoken _ => exact absurd hname (htoken.name?_ne_none hkind)
      | expression he => cases he
  | target hname =>
      cases ht with
      | assign hkind htoken _ => exact absurd hname (htoken.name?_ne_none hkind)
      | expression he => cases he
  | unbound _ _ _ => exact .inl rfl
  | output => exact .inl rfl
  | path => exact .inr ⟨rfl, .inl rfl⟩
  | text => exact .inr ⟨rfl, .inl rfl⟩
  | file => exact .inr ⟨rfl, .inl rfl⟩
  | program hands hsource =>
      refine .inr ⟨?_, .inr ⟨_, _, hands, hsource⟩⟩
      cases hands <;> rfl
  | binary h =>
      cases ht with
      | expression he =>
          cases he with
          | binary hop _ _ _ =>
              obtain ⟨o, -, hfails⟩ := fault_of_binary hop h
              cases hfails <;> exact .inl rfl
  | unary h =>
      cases ht with
      | expression he =>
          cases he with
          | unary hop _ _ =>
              obtain ⟨o, -, hfails⟩ := fault_of_unary hop h
              cases hfails <;> exact .inl rfl
  | leaf h =>
      cases ht with
      | expression he =>
          cases he with
          | leaf hkind htoken =>
              obtain ⟨x, rfl⟩ := fault_of_leaf hkind htoken h
              exact .inl rfl

theorem Enters.wellFormed (h : t.Enters w u v) (ht : t.WellFormed) : u.WellFormed := by
  cases h with
  | member _ =>
      cases ht with
      | scope hbody => exact hbody u (by simp)
      | expression he => cases he
  | init _ =>
      cases ht with
      | define _ _ hinit => exact .expression hinit
      | expression he => cases he
  | branchCond =>
      cases ht with
      | branch hcond _ => exact .expression hcond
      | expression he => cases he
  | branchBody _ _ =>
      cases ht with
      | branch _ hbody => exact .scope hbody
      | expression he => cases he
  | loopCond =>
      cases ht with
      | loop hcond _ => exact .expression hcond
      | expression he => cases he
  | loopBody _ _ =>
      cases ht with
      | loop _ hbody => exact .scope hbody
      | expression he => cases he
  | nextRound _ _ _ => exact ht
  | printed =>
      cases ht with
      | print harg => exact .expression harg
      | expression he => cases he
  | path =>
      cases ht with
      | load harg => exact .expression harg
      | expression he => cases he
  | text =>
      cases ht with
      | exec harg => exact .expression harg
      | expression he => cases he
  | program _ hsource => exact wellFormed_of_ofText hsource
  | value =>
      cases ht with
      | assign _ _ hvalue => exact .expression hvalue
      | expression he => cases he
  | left =>
      cases ht with
      | expression he =>
          cases he with
          | binary _ _ hleft _ => exact .expression hleft
  | right _ =>
      cases ht with
      | expression he =>
          cases he with
          | binary _ _ _ hright => exact .expression hright
  | operand =>
      cases ht with
      | expression he =>
          cases he with
          | unary _ _ hoperand => exact .expression hoperand

theorem Enters.isSelfContained (h : t.Enters w u v) (ht : t.isSelfContained) :
    u.isSelfContained := by
  cases h with
  | member _ =>
      rw [Tree.isSelfContained, isSelfContainedAll_eq_all, List.all_eq_true] at ht
      exact ht u (by simp)
  | init _ => exact ht
  | branchCond => exact ((Bool.and_eq_true _ _).mp ht).1
  | branchBody _ _ => exact ((Bool.and_eq_true _ _).mp ht).2
  | loopCond => exact ((Bool.and_eq_true _ _).mp ht).1
  | loopBody _ _ => exact ((Bool.and_eq_true _ _).mp ht).2
  | nextRound _ _ _ => exact ht
  | printed => exact ht
  | path => cases ht
  | text => cases ht
  | program hands _ => cases hands <;> cases ht
  | value => exact ht
  | left => exact ((Bool.and_eq_true _ _).mp ht).1
  | right _ => exact ((Bool.and_eq_true _ _).mp ht).2
  | operand => exact ht

/-- All trees that a well-formed one leads to are well formed, and without another
text there is none among them that works on texts. -/
theorem Visits.wellFormed (h : t.Visits w u v) (ht : t.WellFormed) :
    u.WellFormed ∧ (t.isSelfContained → u.isSelfContained) := by
  induction h with
  | here t w => exact ⟨ht, fun hself => hself⟩
  | inside henters _ ih =>
      obtain ⟨hu, hself⟩ := ih (henters.wellFormed ht)
      exact ⟨hu, fun h => hself (henters.isSelfContained h)⟩

end Tree

/-! ### Faults of texts -/

/-- The faults of reading a text. What is missing is then something that the grammar
asks for. -/
def Fault.isOfText : Fault → Bool
  | lex _ _ _ => true
  | parse (.kind _) _ _ | parse .expression _ _ | parse .target _ _ | parse .finalEof _ _
  | parse .nothingMore _ _ => true
  | _ => false

namespace Grammar

theorem ExpressionStuck.isOfText {level : Level} {u : List Token} {t : Token} {e : Expected}
    (h : ExpressionStuck level u t e) : (t.blame e).isOfText := by
  induction h with
  | start _ => rfl
  | group _ _ ih => exact ih
  | unclosed _ _ _ _ => rfl
  | sign _ _ ih => exact ih
  | single _ ih => exact ih
  | operand _ _ _ ih => exact ih

theorem EnclosedStuck.isOfText {k : Kind} {u : List Token} {t : Token} {e : Expected}
    (h : EnclosedStuck k u t e) : (t.blame e).isOfText := by
  cases h with
  | inside h => exact h.isOfText
  | unclosed _ _ _ => rfl

theorem StatementStuck.isOfText {form : Form} {u : List Token} {t : Token} {f : Fault}
    (h : StatementStuck form u t f) : f.isOfText := by
  induction h with
  | name _ _ => rfl
  | declare _ _ _ _ => rfl
  | define _ _ _ h => exact h.isOfText
  | opening _ => rfl
  | member _ _ _ _ ih => exact ih
  | closing _ _ _ => rfl
  | ofBlock _ _ ih => exact ih
  | simple _ _ h => exact h.isOfText
  | condition _ _ _ => rfl
  | guard _ _ _ h => exact h.isOfText
  | body _ _ _ _ _ _ ih => exact ih
  | plain _ h => exact h.isOfText
  | semicolon _ _ _ _ => rfl
  | target _ _ _ => rfl
  | assign _ _ _ h => exact h.isOfText

theorem ProgramStuck.isOfText {u : List Token} {t : Token} {f : Fault} (h : ProgramStuck u t f) :
    f.isOfText := by
  cases h with
  | member _ _ h => exact h.isOfText
  | ended _ _ => rfl

end Grammar

theorem isOfText_of_ofText {source : String} {f : Fault} (h : Tree.ofText source = .error f) :
    f.isOfText := by
  obtain ⟨ls, rest, hcut, rfl | ⟨text, reason, hfail⟩⟩ := exists_cut source.toList
  · obtain ⟨ts, line, -, hlex⟩ := lex_of_cut hcut
    have hended : Grammar.Ended (ts ++ [⟨.eof, line, none⟩]) := ⟨ts, _, rfl, rfl⟩
    rw [Tree.ofText, hlex] at h
    obtain ⟨u, t, v, -, hstuck⟩ := Grammar.exists_programStuck (Nat.le_refl _) hended
      (program_of_ofTokens hended h)
    exact hstuck.isOfText
  · obtain ⟨line, -, hlex⟩ := lex_of_failure hcut hfail
    rw [Tree.ofText, hlex] at h
    cases h
    rfl

/-- The faults of malformed trees do not arise from text. If the evaluation of a
parsed tree ends in a fault of lexing or of parsing, on whatever host, this is the
fault of reading a text that `load` or `exec` has handed over on the way. Without
these two there are no such faults at all, and none of their own either. So no
operator, literal or name is found to be malformed, at any depth. -/
theorem fault_of_parsed [HostLike H] {source : String} {t : Tree}
    (hparse : Tree.ofText source = .ok t) {w w' : World H} {f : Fault}
    (h : t.Ends w (.fault f w')) :
    (f.stage = .lex ∨ f.stage = .parse →
      ∃ text, t.HandsOver w text ∧ Tree.ofText text = .error f) ∧
    (t.isSelfContained → f.stage = .runtime ∧ (∀ path, f ≠ .fileNotLoaded path) ∧
      ∀ statement type line, f ≠ .expectedString statement type line) ∧
    ∀ token, f ≠ malformed .binaryOperator token ∧ f ≠ malformed .unaryOperator token ∧
      f ≠ malformed .literal token ∧ f ≠ malformed .identifier token := by
  obtain ⟨-, n, hn⟩ := h
  obtain ⟨u, v, hvisits, hraises⟩ := exists_raises hn
  obtain ⟨hu, hself⟩ := hvisits.wellFormed (wellFormed_of_ofText hparse)
  have htext (hstage : f.stage ≠ .runtime) :
      ∃ text, t.HandsOver w text ∧ Tree.ofText text = .error f := by
    rcases hraises.isPlain_or hu with hf | ⟨-, hf | ⟨text, z, hands, herror⟩⟩
    · exact absurd (Fault.stage_of_isPlain hf) hstage
    · exact absurd hf hstage
    · exact ⟨text, ⟨u, v, z, hvisits, hands⟩, herror⟩
  refine ⟨?_, ?_, ?_⟩
  · rintro (hstage | hstage)
    · exact htext (by simp [hstage])
    · exact htext (by simp [hstage])
  · intro ht
    rcases hraises.isPlain_or hu with hf | ⟨hnot, -⟩
    · refine ⟨Fault.stage_of_isPlain hf, ?_, ?_⟩
      · rintro path rfl
        cases hf
      · rintro statement type line rfl
        cases hf
    · rw [hself ht] at hnot
      cases hnot
  · have hnot (e : Expected) (token : Token) (he : (malformed e token).isOfText = false) :
        f ≠ malformed e token := by
      rintro rfl
      obtain ⟨text, -, herror⟩ := htext Stage.noConfusion
      rw [isOfText_of_ofText herror] at he
      cases he
    exact fun token => ⟨hnot _ token rfl, hnot _ token rfl, hnot _ token rfl, hnot _ token rfl⟩

/-- The text that is no program is executed by a file that is loaded. -/
theorem fault_of_parsed_exec :
    let t : Tree := .load (.leaf ⟨.string, 1, some (.str "f")⟩)
    let w : World :=
      .initial (.ofFiles fun path => if path = "f" then some "exec \"1+\";" else none)
    let f : Fault := .parse .expression (some "<eof>") 1
    Tree.ofText "load \"f\";" = .ok t ∧ t.Ends w (.fault f w) ∧
      ∃ text, t.HandsOver w text ∧ Tree.ofText text = .error f := by
  intro t w f
  have hlex : lex "load \"f\";" = .ok [⟨.kwLoad, 1, none⟩, ⟨.string, 1, some (.str "f")⟩,
      ⟨.semi, 1, none⟩, ⟨.eof, 1, none⟩] := by decide +kernel
  have hparse : Tree.ofText "load \"f\";" = .ok t := by
    rw [Tree.ofText, hlex]
    rfl
  have hlex' : lex "exec \"1+\";" = .ok [⟨.kwExec, 1, none⟩, ⟨.string, 1, some (.str "1+")⟩,
      ⟨.semi, 1, none⟩, ⟨.eof, 1, none⟩] := by decide +kernel
  have hloaded : Tree.ofText "exec \"1+\";" =
      .ok (.exec (.leaf ⟨.string, 1, some (.str "1+")⟩)) := by
    rw [Tree.ofText, hlex']
    rfl
  have hlex'' : lex "1+" = .ok [⟨.int, 1, some (.int 1)⟩, ⟨.plus, 1, none⟩, ⟨.eof, 1, none⟩] := by
    decide +kernel
  have herror : Tree.ofText "1+" = .error f := by
    rw [Tree.ofText, hlex'']
    rfl
  have hends : t.Ends w (.fault f w) := by
    refine ⟨by simp, 3, ?_⟩
    change interpret (eval 2) "exec \"1+\";" w = _
    rw [interpret, hloaded]
    change interpret (eval 1) "1+" w = _
    rw [interpret, herror]
    rfl
  exact ⟨hparse, hends, (fault_of_parsed hparse hends).1 (.inr rfl)⟩

end Quill
