import Quill.Proofs.Expressions
import Quill.Proofs.FreeNames
import Quill.Proofs.WellFormed

/-!
Expressions are pure. A tree of literals and operators, whatever its tokens, is evaluated
to an end from every world and leaves the world as it was, be it that it has a value or
that it fails; and of the world it depends on no more than what its names read as.

So all parts of an expression are evaluated in one and the same world, and which of them
fail is a matter of this world alone. If some do, then the expression fails with the fault
of the first of them, where operands come before their operator and left ones before
right ones (`Tree.ends_fault_iff`). In that part it is the root that fails.

In a parsed program all conditions, all arguments and all values to be bound are such
expressions.
-/

namespace Quill

open Eval

variable {H : Type}

namespace Tree

/-- Literals and operators, and nothing else at any depth. -/
inductive IsExpression : Tree → Prop
  | leaf (token : Token) : IsExpression (.leaf token)
  | unary (op : Token) {operand : Tree} (h : IsExpression operand) :
      IsExpression (.unary op operand)
  | binary (op : Token) {left right : Tree} (hleft : IsExpression left)
      (hright : IsExpression right) : IsExpression (.binary op left right)

end Tree

/-! ### Operators do nothing to the world -/

namespace Eval

theorem exists_unary_eq (op : Token) (a : Value) : ∃ r, unary op a = ofExcept (H := H) r := by
  unfold unary
  split
  · exact ⟨_, rfl⟩
  · exact ⟨.error _, rfl⟩

theorem exists_binary_eq (op : Token) (a b : Value) : ∃ r, binary op a b = ofExcept (H := H) r := by
  unfold binary
  split
  · exact ⟨_, rfl⟩
  · exact ⟨.error _, rfl⟩

theorem ofExcept_ne_exhausted {α : Type} (r : Except Fault α) (w : World H) :
    ofExcept r w ≠ .exhausted := by
  cases r <;> exact fun h => by cases h

theorem leaf_of_name {token : Token} {x : String} (h : token.name? = some x) :
    leaf token = Eval.read (H := H) x := by
  obtain ⟨kind, line, value⟩ := token
  unfold Token.name? at h
  split at h
  · next hkind hvalue =>
      cases h
      dsimp only at hkind hvalue
      subst hkind hvalue
      rfl
  · cases h

/-- A literal that is no name does not look at the world. -/
theorem exists_leaf_eq {token : Token} (h : token.name? = none) :
    ∃ r, leaf token = ofExcept (H := H) r := by
  unfold leaf
  split
  · exact ⟨.ok _, rfl⟩
  · exact ⟨.ok _, rfl⟩
  · exact ⟨.ok _, rfl⟩
  · exact ⟨.ok _, rfl⟩
  · refine ⟨.error (malformed .identifier token), ?_⟩
    simp only [identifier, h]
    rfl
  · exact ⟨.error _, rfl⟩

theorem exists_read_eq (x : String) (read : String → Option Value) :
    ∃ r, ∀ w : World H, w.env.read? x = read x → Eval.read x w = ofExcept r w := by
  cases hread : read x with
  | some a =>
      refine ⟨.ok a, fun w hw => ?_⟩
      rw [Eval.read, hw]
      rfl
  | none =>
      refine ⟨.error (.nameNotFound x), fun w hw => ?_⟩
      rw [Eval.read, hw]
      rfl

end Eval

namespace Tree

variable [HostLike H]

/-! ### Expressions do nothing to the world -/

/-- Given what its names read as, an expression has a result, which is the same in all
worlds in which they read so. -/
theorem exists_result {t : Tree} (ht : t.IsExpression) (read : String → Option Value) :
    ∃ r, ∀ w : World H, (∀ x ∈ t.freeNames, w.env.read? x = read x) →
      t.Ends w (ofExcept r w) := by
  induction ht with
  | leaf token =>
      cases hname : token.name? with
      | none =>
          obtain ⟨r, hr⟩ := exists_leaf_eq hname
          exact ⟨r, fun w _ => ⟨ofExcept_ne_exhausted r w, 1, congrFun hr w⟩⟩
      | some x =>
          obtain ⟨r, hr⟩ := exists_read_eq x read
          refine ⟨r, fun w hw => ⟨ofExcept_ne_exhausted r w, 1, ?_⟩⟩
          rw [eval, leaf_of_name hname]
          exact hr w (hw x (by simp [freeNames, free, hname]))
  | unary op _ ih =>
      obtain ⟨r, hr⟩ := ih
      cases r with
      | error f => exact ⟨.error f, fun w hw => (hr w hw).unary_fault⟩
      | ok a =>
          obtain ⟨s, hs⟩ := exists_unary_eq op a
          refine ⟨s, fun w hw => (hr w hw).unary ?_ (ofExcept_ne_exhausted s w)⟩
          rw [hs]
  | @binary op left right _ _ ihl ihr =>
      obtain ⟨r, hr⟩ := ihl
      obtain ⟨s, hs⟩ := ihr
      have hnames {w : World H} (hw : ∀ x ∈ (binary op left right).freeNames,
          w.env.read? x = read x) :
          (∀ x ∈ left.freeNames, w.env.read? x = read x) ∧
            ∀ x ∈ right.freeNames, w.env.read? x = read x := by
        rw [freeNames, free, List.map_append] at hw
        exact List.forall_mem_append.1 hw
      cases r with
      | error f => exact ⟨.error f, fun w hw => (hr w (hnames hw).1).left_fault⟩
      | ok a =>
          cases s with
          | error f =>
              exact ⟨.error f, fun w hw => (hr w (hnames hw).1).right_fault (hs w (hnames hw).2)⟩
          | ok b =>
              obtain ⟨q, hq⟩ := exists_binary_eq op a b
              refine ⟨q, fun w hw => (hr w (hnames hw).1).binary (hs w (hnames hw).2) ?_
                (ofExcept_ne_exhausted q w)⟩
              rw [hq]

/-- In any one world an expression has a value or fails, and leaves the world alone. -/
theorem done_or_fault {t : Tree} (ht : t.IsExpression) (w : World H) :
    (∃ a, t.Ends w (.done a w)) ∨ ∃ f, t.Ends w (.fault f w) := by
  obtain ⟨r, hr⟩ := exists_result (H := H) ht w.env.read?
  cases r with
  | ok a => exact .inl ⟨a, hr w fun _ _ => rfl⟩
  | error f => exact .inr ⟨f, hr w fun _ _ => rfl⟩

/-! ### The first part that fails -/

/-- The root of the expression fails in this world while its operands have values: a
literal without one, or an operator that is none or has no result on these. -/
inductive FailsAtRoot (w : World H) : Tree → Fault → Prop
  | leaf {token : Token} {f : Fault} (h : Eval.leaf token w = .fault f w) :
      FailsAtRoot w (.leaf token) f
  | unary {op : Token} {operand : Tree} {a : Value} {f : Fault}
      (hoperand : operand.Ends w (.done a w)) (h : Eval.unary op a w = .fault f w) :
      FailsAtRoot w (.unary op operand) f
  | binary {op : Token} {left right : Tree} {a b : Value} {f : Fault}
      (hleft : left.Ends w (.done a w)) (hright : right.Ends w (.done b w))
      (h : Eval.binary op a b w = .fault f w) : FailsAtRoot w (.binary op left right) f

variable {t u : Tree} {w : World H} {f g : Fault}

theorem FailsAtRoot.ends (h : FailsAtRoot w t f) : t.Ends w (.fault f w) := by
  cases h with
  | leaf h => exact ⟨by simp, 1, h⟩
  | unary hoperand h => exact hoperand.unary h (by simp)
  | binary hleft hright h => exact hleft.binary hright h (by simp)

theorem Ends.not_done (h : t.Ends w (.fault f w)) : ¬ ∃ a, t.Ends w (.done a w) := by
  rintro ⟨a, ha⟩
  cases ha.unique h

/-- The expression has a value in this world, and so have all its parts. -/
def Sound (w : World H) (t : Tree) : Prop := ∀ s ∈ t.subexpressions, ∃ a, s.Ends w (.done a w)

/-- The first part that fails, the root of which does, with the parts before it. -/
def FirstFails (w : World H) (t : Tree) (f : Fault) : Prop :=
  ∃ before u after, t.subexpressions = before ++ u :: after ∧
    (∀ s ∈ before, ∃ a, s.Ends w (.done a w)) ∧ FailsAtRoot w u f

/-- Either all parts have values, or there is a first one that fails and the whole fails
as this one does. -/
theorem sound_or_firstFails (ht : t.IsExpression) (w : World H) :
    (∃ a, t.Ends w (.done a w)) ∧ t.Sound w ∨ ∃ f, t.Ends w (.fault f w) ∧ t.FirstFails w f := by
  induction ht with
  | leaf token =>
      rcases done_or_fault (.leaf token) w with ⟨a, ha⟩ | ⟨f, hf⟩
      · exact .inl ⟨⟨a, ha⟩, List.forall_mem_singleton.2 ⟨a, ha⟩⟩
      · obtain ⟨n, hn⟩ := hf.exists_fuel
        have hroot : Eval.leaf token w = .fault f w := hn (n + 1) (Nat.le_succ n)
        exact .inr ⟨f, hf, [], _, [], rfl, by simp, .leaf hroot⟩
  | @unary op operand hoperand ih =>
      rcases ih with ⟨⟨a, ha⟩, hsound⟩ | ⟨f, hf, before, u, after, hsub, hbefore, hu⟩
      · obtain ⟨r, hr⟩ := exists_unary_eq op a
        cases r with
        | ok b =>
            have hb : (Tree.unary op operand).Ends w (.done b w) :=
              ha.unary (congrFun hr w) (by simp)
            exact .inl ⟨⟨b, hb⟩, List.forall_mem_append.2 ⟨hsound, by simpa using ⟨b, hb⟩⟩⟩
        | error f =>
            have hroot : FailsAtRoot w (.unary op operand) f := .unary ha (congrFun hr w)
            exact .inr ⟨f, hroot.ends, _, _, [], rfl, hsound, hroot⟩
      · refine .inr ⟨f, hf.unary_fault, before, u, after ++ [.unary op operand], ?_, hbefore, hu⟩
        rw [subexpressions, hsub, List.append_assoc, List.cons_append]
  | @binary op left right _ _ ihl ihr =>
      rcases ihl with ⟨⟨a, ha⟩, hleft⟩ | ⟨f, hf, before, u, after, hsub, hbefore, hu⟩
      · rcases ihr with ⟨⟨b, hb⟩, hright⟩ | ⟨f, hf, before, u, after, hsub, hbefore, hu⟩
        · have hparts := List.forall_mem_append.2 ⟨hleft, hright⟩
          obtain ⟨r, hr⟩ := exists_binary_eq op a b
          cases r with
          | ok c =>
              have hc : (Tree.binary op left right).Ends w (.done c w) :=
                ha.binary hb (congrFun hr w) (by simp)
              refine .inl ⟨⟨c, hc⟩, ?_⟩
              rw [Sound, subexpressions, ← List.append_assoc]
              exact List.forall_mem_append.2 ⟨hparts, by simpa using ⟨c, hc⟩⟩
          | error f =>
              have hroot : FailsAtRoot w (.binary op left right) f := .binary ha hb (congrFun hr w)
              refine .inr ⟨f, hroot.ends, _, _, [], ?_, hparts, hroot⟩
              rw [subexpressions, List.append_assoc]
        · refine .inr ⟨f, ha.right_fault hf, left.subexpressions ++ before, u,
            after ++ [.binary op left right], ?_, List.forall_mem_append.2 ⟨hleft, hbefore⟩, hu⟩
          simp [subexpressions, hsub]
      · refine .inr ⟨f, hf.left_fault, before, u,
          after ++ (right.subexpressions ++ [.binary op left right]), ?_, hbefore, hu⟩
        rw [subexpressions, hsub, List.append_assoc, List.cons_append]

/-- The first member of a list without a property is one and the same, however the list
is split there. -/
theorem eq_of_first {P : Tree → Prop} {u u' : Tree} {before before' after after' : List Tree}
    (h : before ++ u :: after = before' ++ u' :: after') (hbefore : ∀ s ∈ before, P s)
    (hu : ¬ P u) (hbefore' : ∀ s ∈ before', P s) (hu' : ¬ P u') : u = u' := by
  induction before generalizing before' with
  | nil =>
      cases before' with
      | nil => exact (List.cons.inj h).1
      | cons s before' =>
          obtain ⟨rfl, -⟩ := List.cons.inj h
          exact absurd (hbefore' u (by simp)) hu
  | cons s before ih =>
      obtain ⟨hs, hrest⟩ := List.forall_mem_cons.1 hbefore
      cases before' with
      | nil =>
          obtain ⟨rfl, -⟩ := List.cons.inj h
          exact absurd hs hu'
      | cons s' before' =>
          exact ih (List.cons.inj h).2 hrest (List.forall_mem_cons.1 hbefore').2

theorem FirstFails.unique (h : t.FirstFails w f) (h' : t.FirstFails w g) : f = g := by
  obtain ⟨before, u, after, hsub, hbefore, hu⟩ := h
  obtain ⟨before', u', after', hsub', hbefore', hu'⟩ := h'
  obtain rfl := eq_of_first (hsub.symm.trans hsub') hbefore hu.ends.not_done hbefore'
    hu'.ends.not_done
  cases hu.ends.unique hu'.ends
  rfl

/-- An expression fails as the first of its parts that fail does, and if none does, it
does not fail. -/
theorem ends_fault_iff (ht : t.IsExpression) :
    t.Ends w (.fault f w) ↔ t.FirstFails w f := by
  rcases sound_or_firstFails ht w with ⟨hdone, hsound⟩ | ⟨g, hg, hfirst⟩
  · refine ⟨fun h => absurd hdone h.not_done, ?_⟩
    rintro ⟨before, u, after, hsub, -, hu⟩
    exact absurd (hsound u (by simp [hsub])) hu.ends.not_done
  · constructor
    · intro h
      cases h.unique hg
      exact hfirst
    · intro h
      exact h.unique hfirst ▸ hg

/-! ### Expressions in programs -/

mutual

/-- The tree and all trees inside it, at whatever depth. -/
def nodes : Tree → List Tree
  | scope body => scope body :: nodesAll body
  | declare name => [declare name]
  | define name init => define name init :: nodes init
  | branch cond body => branch cond body :: (nodes cond ++ nodes body)
  | loop cond body => loop cond body :: (nodes cond ++ nodes body)
  | print arg => print arg :: nodes arg
  | load arg => load arg :: nodes arg
  | exec arg => exec arg :: nodes arg
  | assign name value => assign name value :: nodes value
  | binary op left right => binary op left right :: (nodes left ++ nodes right)
  | unary op operand => unary op operand :: nodes operand
  | leaf token => [leaf token]

def nodesAll : List Tree → List Tree
  | [] => []
  | t :: ts => nodes t ++ nodesAll ts

end

@[simp] theorem nodesAll_eq_flatMap (ts : List Tree) : nodesAll ts = ts.flatMap nodes := by
  induction ts with
  | nil => rfl
  | cons t ts ih => rw [nodesAll, ih, List.flatMap_cons]

theorem self_mem_nodes (t : Tree) : t ∈ t.nodes := by
  cases t <;> exact List.mem_cons_self

/-- The trees of which a statement itself asks for the value: the condition of a
conditional, the argument of a command, and what is bound to a name. -/
def asked : Tree → List Tree
  | branch cond _ | loop cond _ => [cond]
  | print arg | load arg | exec arg => [arg]
  | define _ init => [init]
  | assign _ value => [value]
  | _ => []

theorem WellFormedExpression.isExpression {e : Tree} (h : e.WellFormedExpression) :
    e.IsExpression := by
  induction h with
  | leaf _ _ => exact .leaf _
  | unary _ _ _ ih => exact .unary _ ih
  | binary _ _ _ _ ihl ihr => exact .binary _ ihl ihr

theorem WellFormedExpression.of_mem_nodes {e : Tree} (h : e.WellFormedExpression) :
    ∀ u ∈ e.nodes, u.WellFormedExpression := by
  induction h with
  | leaf hkind htoken => exact List.forall_mem_singleton.2 (.leaf hkind htoken)
  | unary hop hvalue hoperand ih =>
      exact List.forall_mem_cons.2 ⟨.unary hop hvalue hoperand, ih⟩
  | binary hop hvalue hleft hright ihl ihr =>
      exact List.forall_mem_cons.2
        ⟨.binary hop hvalue hleft hright, List.forall_mem_append.2 ⟨ihl, ihr⟩⟩

theorem WellFormed.of_mem_nodes (h : t.WellFormed) : ∀ u ∈ t.nodes, u.WellFormed := by
  have hexpr {e : Tree} (he : e.WellFormedExpression) : ∀ u ∈ e.nodes, u.WellFormed :=
    fun u hu => .expression (he.of_mem_nodes u hu)
  have hscope {body : List Tree} (hbody : ∀ s ∈ body, s.WellFormed)
      (ih : ∀ s ∈ body, ∀ u ∈ s.nodes, u.WellFormed) :
      ∀ u ∈ (Tree.scope body).nodes, u.WellFormed := by
    rw [nodes, nodesAll_eq_flatMap]
    refine List.forall_mem_cons.2 ⟨.scope hbody, fun u hu => ?_⟩
    obtain ⟨s, hs, hu⟩ := List.mem_flatMap.1 hu
    exact ih s hs u hu
  induction h with
  | scope hbody ih => exact hscope hbody ih
  | declare hkind hname => exact List.forall_mem_singleton.2 (.declare hkind hname)
  | define hkind hname hinit =>
      exact List.forall_mem_cons.2 ⟨.define hkind hname hinit, hexpr hinit⟩
  | branch hcond hbody ih =>
      exact List.forall_mem_cons.2
        ⟨.branch hcond hbody, List.forall_mem_append.2 ⟨hexpr hcond, hscope hbody ih⟩⟩
  | loop hcond hbody ih =>
      exact List.forall_mem_cons.2
        ⟨.loop hcond hbody, List.forall_mem_append.2 ⟨hexpr hcond, hscope hbody ih⟩⟩
  | print harg => exact List.forall_mem_cons.2 ⟨.print harg, hexpr harg⟩
  | load harg => exact List.forall_mem_cons.2 ⟨.load harg, hexpr harg⟩
  | exec harg => exact List.forall_mem_cons.2 ⟨.exec harg, hexpr harg⟩
  | assign hkind hname hvalue =>
      exact List.forall_mem_cons.2 ⟨.assign hkind hname hvalue, hexpr hvalue⟩
  | expression he => exact hexpr he

theorem WellFormed.isExpression_of_asked (h : u.WellFormed) : ∀ e ∈ u.asked, e.IsExpression := by
  cases h with
  | scope _ => simp [asked]
  | declare _ _ => simp [asked]
  | define _ _ hinit => exact List.forall_mem_singleton.2 hinit.isExpression
  | branch hcond _ => exact List.forall_mem_singleton.2 hcond.isExpression
  | loop hcond _ => exact List.forall_mem_singleton.2 hcond.isExpression
  | print harg => exact List.forall_mem_singleton.2 harg.isExpression
  | load harg => exact List.forall_mem_singleton.2 harg.isExpression
  | exec harg => exact List.forall_mem_singleton.2 harg.isExpression
  | assign _ _ hvalue => exact List.forall_mem_singleton.2 hvalue.isExpression
  | expression he => cases he <;> simp [asked]

end Tree

/-- Expressions are pure. From every world an expression of whatever tokens is evaluated to
an end, with a value or a fault, and leaves the world as it was; and from any other world
in which its names read the same it ends in the same way. If it fails, then with the fault
of the first of its parts that fail, operands before operators and left before right.
In a parsed program this goes for all that a statement at whatever depth asks the value
of: its condition, its argument, or what it binds to a name. -/
theorem expressions_pure [HostLike H] :
    (∀ t : Tree, t.IsExpression → ∀ w : World H,
      (∃ r, t.Ends w (ofExcept r w) ∧
        ∀ v : World H, (∀ x ∈ t.freeNames, v.env.read? x = w.env.read? x) →
          t.Ends v (ofExcept r v)) ∧
      ∀ f, t.Ends w (.fault f w) ↔
        ∃ before u after, t.subexpressions = before ++ u :: after ∧
          (∀ s ∈ before, ∃ a, s.Ends w (.done a w)) ∧ Tree.FailsAtRoot w u f) ∧
    ∀ source t, Tree.ofText source = .ok t → ∀ u ∈ t.nodes, ∀ e ∈ u.asked,
      e.IsExpression ∧ ∀ w : World H, ∃ r, e.Ends w (ofExcept r w) := by
  refine ⟨fun t ht w => ⟨?_, fun f => Tree.ends_fault_iff ht⟩, fun source t h u hu e he => ?_⟩
  · obtain ⟨r, hr⟩ := Tree.exists_result (H := H) ht w.env.read?
    exact ⟨r, hr w fun _ _ => rfl, hr⟩
  · have hu' : u.WellFormed := (wellFormed_of_ofText h).of_mem_nodes u hu
    have he' := hu'.isExpression_of_asked e he
    refine ⟨he', fun w => ?_⟩
    obtain ⟨r, hr⟩ := Tree.exists_result (H := H) he' w.env.read?
    exact ⟨r, hr w fun _ _ => rfl⟩

/-- Both factors fail and their product would as well. The left one is the first to, and it
is its sign that does; and all of it is the condition of a loop. -/
theorem expressions_pure_factors :
    let yes : Token := ⟨.kwTrue, 1, none⟩
    let y : Token := ⟨.ident, 1, some (.str "y")⟩
    let sign : Tree := .unary ⟨.minus, 1, none⟩ (.leaf yes)
    let product : Tree := .binary ⟨.star, 1, none⟩ sign (.leaf y)
    let loop : Tree := .loop product (.scope [])
    let w : World := .initial (.ofFiles fun _ => none)
    product.IsExpression ∧ (Tree.leaf y).Ends w (.fault (.nameNotFound "y") w) ∧
      product.Ends w (.fault (.badOperand .minus .bool 1) w) ∧
      Tree.ofText "while(-true*y)\x7b\x7d" = .ok loop ∧
      ∀ v : World, ∃ r, product.Ends v (ofExcept r v) := by
  intro yes y sign product loop w
  have hexpr : product.IsExpression := .binary _ (.unary _ (.leaf yes)) (.leaf y)
  have hyes : (Tree.leaf yes).Ends w (.done (.bool true) w) := ⟨by simp, 1, rfl⟩
  have hsign : Tree.FailsAtRoot w sign (.badOperand .minus .bool 1) := .unary hyes rfl
  have hends : product.Ends w (.fault (.badOperand .minus .bool 1) w) :=
    ((expressions_pure.1 product hexpr w).2 _).2
      ⟨[.leaf yes], sign, _, rfl, List.forall_mem_singleton.2 ⟨_, hyes⟩, hsign⟩
  have hlex : lex "while(-true*y)\x7b\x7d" = .ok [⟨.kwWhile, 1, none⟩, ⟨.lparen, 1, none⟩,
      ⟨.minus, 1, none⟩, yes, ⟨.star, 1, none⟩, y, ⟨.rparen, 1, none⟩, ⟨.lbrace, 1, none⟩,
      ⟨.rbrace, 1, none⟩, ⟨.eof, 1, none⟩] := by decide +kernel
  have hparse : Tree.ofText "while(-true*y)\x7b\x7d" = .ok loop :=
    Tree.ofText_eq_ok_iff.2 ⟨_, hlex, rfl⟩
  have hloop : loop ∈ loop.nodes := List.mem_cons_self
  have hcond : product ∈ loop.asked := List.mem_singleton.2 rfl
  exact ⟨hexpr, ⟨by simp, 1, rfl⟩, hends, hparse,
    (expressions_pure.2 _ loop hparse loop hloop product hcond).2⟩

end Quill
