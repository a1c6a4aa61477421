import Quill.Proofs.Frames

/-!
Scoping is lexical. Which names a program may fail to find is settled by its text,
as long as it neither loads nor executes other texts: those it uses or assigns to
where no `let` of the same block or of one around it has come before. `Tree.free`
collects these occurrences from the tree.

What ties the text to the run is `Scoped`. It is `Built` with a list of names
before and after, those that are certain to have been declared, and it lets a
computation touch a name only if the name is among them or is free. `scoped_eval`
reads an evaluation off its tree in this way, once, and what follows from it is
then a matter of the single actions.
-/

namespace Quill

/-- What is done with a name where it occurs. -/
inductive Access
  | use | assignment
  deriving DecidableEq, Repr

namespace Tree

/-- The names that a statement declares in the block it belongs to. -/
def declared : Tree → List String
  | declare name | define name _ => name.name?.toList
  | _ => []

/-- The occurrences that a declaration of these names does not reach. -/
def outside (names : List String) (occurrences : List (Access × String)) :
    List (Access × String) :=
  occurrences.filter fun o => o.2 ∉ names

mutual

/-- The uses and assignments of names that no `let` comes before, neither in their
own block nor in one around it. A name is declared before its initial value is
worked out, and what is declared in a block ends with the block. -/
def free : Tree → List (Access × String)
  | scope body => freeAll body
  | declare _ => []
  | define name init => outside name.name?.toList (free init)
  | branch cond body | loop cond body => free cond ++ free body
  | print arg | load arg | exec arg => free arg
  | assign name value => free value ++ name.name?.toList.map (.assignment, ·)
  | binary _ left right => free left ++ free right
  | unary _ operand => free operand
  | leaf token => token.name?.toList.map (.use, ·)

/-- The same for statements that follow each other in a block. -/
def freeAll : List Tree → List (Access × String)
  | [] => []
  | t :: ts => free t ++ outside t.declared (freeAll ts)

end

/-- The names that occur free, be it in a use or in an assignment. -/
def freeNames (t : Tree) : List String := t.free.map Prod.snd

mutual

/-- The tree neither loads nor executes another text. -/
def isSelfContained : Tree → Bool
  | scope body => isSelfContainedAll body
  | declare _ | leaf _ => true
  | load _ | exec _ => false
  | define _ part | print part | assign _ part | unary _ part => isSelfContained part
  | branch part part' | loop part part' | binary _ part part' =>
      isSelfContained part && isSelfContained part'

def isSelfContainedAll : List Tree → Bool
  | [] => true
  | t :: ts => isSelfContained t && isSelfContainedAll ts

end

@[simp] theorem isSelfContainedAll_eq_all (ts : List Tree) :
    isSelfContainedAll ts = ts.all isSelfContained := by
  induction ts with
  | nil => rfl
  | cons t ts ih => rw [isSelfContainedAll, ih, List.all_cons]

theorem mem_outside_or (names : List String) {occurrences : List (Access × String)}
    {o : Access × String} (h : o ∈ occurrences) : o.2 ∈ names ∨ o ∈ outside names occurrences := by
  by_cases hname : o.2 ∈ names
  · exact .inl hname
  · exact .inr (List.mem_filter.2 ⟨h, decide_eq_true hname⟩)

end Tree

/-! ### Computations that keep to their scope -/

variable {H : Type} [HostLike H]

namespace Eval

/-- The computation touches names that are declared, given those declared before
it, and free names in the ways that are listed. The second list has names that are
declared once it is done; what is declared in a frame is not among them when the
frame is gone. It does not fail for want of a name by itself. -/
inductive Scoped (free : List (Access × String)) :
    {α : Type} → List String → Eval H α → List String → Prop
  | pure {α : Type} {ns : List String} (a : α) : Scoped free ns (pure a) ns
  | fail {α : Type} {ns ms : List String} {f : Fault} (hf : ∀ x, f ≠ .nameNotFound x) :
      Scoped free ns (fail f : Eval H α) ms
  | outOfFuel {α : Type} {ns ms : List String} : Scoped free ns (outOfFuel : Eval H α) ms
  | bind {α β : Type} {ns ms ks : List String} {x : Eval H α} {f : α → Eval H β}
      (hx : Scoped free ns x ms) (hf : ∀ a, Scoped free ms (f a) ks) :
      Scoped free ns (x >>= f) ks
  | declare {ns : List String} (name : String) : Scoped free ns (declare name) (name :: ns)
  | read {ns : List String} {name : String} (h : name ∈ ns ∨ (.use, name) ∈ free) :
      Scoped free ns (read name) ns
  | write {ns : List String} {name : String} (value : Value)
      (h : name ∈ ns ∨ (.assignment, name) ∈ free) : Scoped free ns (write name value) ns
  | inFrame {ns ms : List String} {x : Eval H Unit} (hx : Scoped free ns x ms) :
      Scoped free ns (inFrame x) ns
  | print {ns : List String} (text : String) (line : Nat) : Scoped free ns (print text line) ns
  | forget {α : Type} {ns ms ks : List String} {x : Eval H α} (hx : Scoped free ns x ms)
      (h : ks ⊆ ms) : Scoped free ns x ks

section

variable {free : List (Access × String)} {ns ms : List String}

theorem scoped_ofExcept {α : Type} {r : Except Fault α}
    (h : ∀ f, r = .error f → ∀ x, f ≠ .nameNotFound x) :
    Scoped (H := H) free ns (ofExcept r) ns := by
  cases r with
  | ok a => exact .pure a
  | error f => exact .fail (h f rfl)

/-- To go on with the name of a token it is enough to do so if the token has one. -/
theorem scoped_identifier_bind {α : Type} {t : Token} {g : String → Eval H α}
    (h : ∀ x, t.name? = some x → Scoped free ns (g x) ms) :
    Scoped free ns (identifier t >>= g) ms := by
  unfold identifier
  cases hname : t.name? with
  | some x => exact h x hname
  | none =>
      change Scoped free ns (Eval.fail (malformed .identifier t)) ms
      exact .fail fun x => Fault.noConfusion

theorem scoped_leaf {t : Token} (h : ∀ o ∈ (Tree.leaf t).free, o.2 ∈ ns ∨ o ∈ free) :
    Scoped (H := H) free ns (leaf t) ns := by
  unfold leaf
  split
  · exact .pure _
  · exact .pure _
  · exact .pure _
  · exact .pure _
  · refine scoped_identifier_bind fun x hx => ?_
    have hmem : (Access.use, x) ∈ (Tree.leaf t).free := by simp [Tree.free, hx]
    exact .read (h _ hmem)
  · exact .fail fun x => Fault.noConfusion

theorem scoped_binary (op : Token) (a b : Value) : Scoped (H := H) free ns (binary op a b) ns := by
  unfold binary
  split
  · refine scoped_ofExcept fun f hf x => ?_
    rintro rfl
    cases BinaryOp.fails_of_apply hf
  · exact .fail fun x => Fault.noConfusion

theorem scoped_unary (op : Token) (a : Value) : Scoped (H := H) free ns (unary op a) ns := by
  unfold unary
  split
  · refine scoped_ofExcept fun f hf x => ?_
    rintro rfl
    cases UnaryOp.fails_of_apply hf
  · exact .fail fun x => Fault.noConfusion

theorem scoped_sequence {step : Tree → Eval H Value} {ts : List Tree}
    (hstep : ∀ t ∈ ts, ∀ ns, (∀ o ∈ t.free, o.2 ∈ ns ∨ o ∈ free) →
      Scoped free ns (step t) (t.declared ++ ns))
    (h : ∀ o ∈ Tree.freeAll ts, o.2 ∈ ns ∨ o ∈ free) :
    ∃ ms, Scoped free ns (Eval.sequence step ts) ms := by
  induction ts generalizing ns with
  | nil => exact ⟨ns, .pure ()⟩
  | cons t ts ih =>
      have hhead := hstep t (by simp) ns fun o ho => h o (by simp [Tree.freeAll, ho])
      have htail : ∀ o ∈ Tree.freeAll ts, o.2 ∈ t.declared ++ ns ∨ o ∈ free := by
        intro o ho
        rcases Tree.mem_outside_or t.declared ho with hdeclared | houtside
        · exact .inl (List.mem_append_left _ hdeclared)
        · exact (h o (List.mem_append_right _ houtside)).imp_left (List.mem_append_right _)
      obtain ⟨ms, hrest⟩ := ih (fun u hu => hstep u (by simp [hu])) htail
      exact ⟨ms, .bind hhead fun _ => hrest⟩

end

end Eval

open Eval

/-- Evaluation keeps to the scope that the text gives it: what occurs free in the
tree must be declared already or be among the free names. -/
theorem scoped_eval {free : List (Access × String)} (n : Nat) {t : Tree} {ns : List String}
    (hself : t.isSelfContained) (h : ∀ o ∈ t.free, o.2 ∈ ns ∨ o ∈ free) :
    Scoped (H := H) free ns (eval n t) (t.declared ++ ns) := by
  induction n generalizing t ns with
  | zero => exact .outOfFuel
  | succ n ih =>
      -- Only the members of a block pass on what they declare.
      have hpart {u : Tree} (hu : u.isSelfContained) (hfree : ∀ o ∈ u.free, o.2 ∈ ns ∨ o ∈ free) :
          Scoped (H := H) free ns (eval n u) ns :=
            .forget (ih hu hfree) (List.subset_append_right _ _)
      cases t with
      | scope body =>
          rw [Tree.isSelfContained, Tree.isSelfContainedAll_eq_all, List.all_eq_true] at hself
          obtain ⟨ms, hbody⟩ := scoped_sequence (fun t ht _ => ih (hself t ht)) h
          exact .bind (.inFrame hbody) fun _ => .pure _
      | declare name =>
          refine scoped_identifier_bind fun x hx => .bind (.declare x) fun _ => ?_
          rw [Tree.declared, hx]
          exact .pure _
      | define name init =>
          refine scoped_identifier_bind fun x hx => .bind (.declare x) fun _ => ?_
          have hinit : ∀ o ∈ init.free, o.2 ∈ x :: ns ∨ o ∈ free := by
            intro o ho
            rcases Tree.mem_outside_or [x] ho with hname | houtside
            · exact .inl (List.mem_cons.2 (.inl (List.mem_singleton.1 hname)))
            · refine (h o ?_).imp_left (List.mem_cons_of_mem x)
              rwa [Tree.free, hx]
          refine .bind (ih hself hinit) fun v => .bind (.write v (.inl (by simp))) fun _ => ?_
          rw [Tree.declared, hx]
          exact .forget (.pure _) (List.subset_append_right _ _)
      | branch cond body =>
          obtain ⟨hcond, hbody⟩ := (Bool.and_eq_true _ _).mp hself
          obtain ⟨hcondFree, hbodyFree⟩ := List.forall_mem_append.1 h
          refine .bind (hpart hcond hcondFree) fun v => ?_
          split
          · exact .bind (hpart hbody hbodyFree) fun _ => .pure _
          · exact .pure _
      | loop cond body =>
          obtain ⟨hcond, hbody⟩ := (Bool.and_eq_true _ _).mp hself
          obtain ⟨hcondFree, hbodyFree⟩ := List.forall_mem_append.1 h
          refine .bind (hpart hcond hcondFree) fun v => ?_
          split
          · exact .bind (hpart hbody hbodyFree) fun _ => hpart (u := .loop cond body) hself h
          · exact .pure _
      | print arg =>
          exact .bind (hpart hself h) fun v => .bind (.print v.text arg.line) fun _ => .pure _
      | load arg => cases hself
      | exec arg => cases hself
      | assign name value =>
          obtain ⟨hvalueFree, hnameFree⟩ := List.forall_mem_append.1 h
          refine .bind (hpart hself hvalueFree) fun v =>
            scoped_identifier_bind fun x hx => .bind (.write v ?_) fun _ => .pure _
          exact hnameFree (.assignment, x) (by simp [hx])
      | binary op left right =>
          obtain ⟨hleft, hright⟩ := (Bool.and_eq_true _ _).mp hself
          obtain ⟨hleftFree, hrightFree⟩ := List.forall_mem_append.1 h
          exact .bind (hpart hleft hleftFree) fun a => .bind (hpart hright hrightFree) fun b =>
            scoped_binary op a b
      | unary op operand => exact .bind (hpart hself h) fun a => scoped_unary op a
      | leaf token => exact scoped_leaf h

/-! ### Names that are not found -/

theorem Frame.get?_eq_none_iff (f : Frame) (x : String) : f.get? x = none ↔ x ∉ f.names := by
  induction f with
  | nil => simp [get?, names]
  | cons b rest ih =>
      obtain ⟨n, v⟩ := b
      by_cases hn : n = x
      · simp [get?, names, hn]
      · rw [get?, if_neg hn, ih]
        simp [names, Ne.symm hn]

namespace Env

/-- Some frame has a binding of the name. -/
def Binds (e : Env) (x : String) : Prop := ∃ f ∈ e.frames, x ∈ f.names

theorem read?_eq_none_iff (e : Env) (x : String) : e.read? x = none ↔ ¬ e.Binds x := by
  simp [read?, Binds, Frame.get?_eq_none_iff]

theorem binds_of_read? {e : Env} {x : String} {v : Value} (h : e.read? x = some v) :
    e.Binds x := by
  refine Classical.not_not.1 fun hnot => ?_
  rw [(read?_eq_none_iff e x).2 hnot] at h
  cases h

theorem binds_iff (e : Env) (x : String) : e.Binds x ↔ ∃ ns ∈ e.names, x ∈ ns := by
  constructor
  · rintro ⟨f, hf, hx⟩
    exact ⟨f.names, List.mem_map_of_mem hf, hx⟩
  · rintro ⟨ns, hns, hx⟩
    obtain ⟨f, hf, rfl⟩ := List.mem_map.1 hns
    exact ⟨f, hf, hx⟩

/-- Names are not lost when frames grow. -/
theorem Grown.binds {e e' : Env} (h : Grown e e') {x : String} (hx : e.Binds x) : e'.Binds x := by
  cases h with
  | none => exact hx
  | first f => simp [Binds] at hx
  | @frames f f' fs fs' hf hfs =>
      rw [binds_iff] at hx ⊢
      simp only [names, List.map_cons, List.mem_cons, exists_eq_or_imp] at hx ⊢
      rw [hfs]
      exact hx.imp_left fun hmem => hf.subset hmem

theorem binds_push {e : Env} {x : String} (h : e.Binds x) : e.push.Binds x := by
  obtain ⟨f, hf, hx⟩ := h
  exact ⟨f, List.mem_cons_of_mem [] hf, hx⟩

end Env

/-- A computation that keeps to its scope declares what it is said to declare, and
finds every name but free ones that no frame has. -/
theorem Eval.Scoped.finds {free : List (Access × String)} {α : Type} {ns ms : List String}
    {x : Eval H α} (h : Scoped free ns x ms) {w : World H} (hns : ∀ y ∈ ns, w.env.Binds y) :
    (x w).Ensures (fun _ v => Env.Grown w.env v.env ∧ ∀ y ∈ ms, v.env.Binds y)
      fun f _ => ∀ y, f = .nameNotFound y → (∃ a, (a, y) ∈ free) ∧ ¬ w.env.Binds y := by
  have hsame : Env.Grown w.env w.env := Env.grown_of_names rfl
  induction h generalizing w with
  | pure a => exact ⟨hsame, hns⟩
  | fail hf => exact fun y hy => absurd hy (hf y)
  | outOfFuel => exact trivial
  | bind _ _ ihx ihf =>
      refine ensures_bind (ihx hns hsame) fun a v hv => ?_
      refine (ihf a hv.2 (Env.grown_of_names rfl)).mono ?_ ?_
      · rintro b u ⟨hgrown, hks⟩
        exact ⟨hv.1.trans hgrown, hks⟩
      · intro f u hf y hy
        obtain ⟨hfree, hnot⟩ := hf y hy
        exact ⟨hfree, fun hbinds => hnot (hv.1.binds hbinds)⟩
  | declare name =>
      have hgrown := Env.grown_declare w.env name
      refine ⟨hgrown, fun y hy => ?_⟩
      rcases List.mem_cons.1 hy with rfl | hy
      · exact Env.binds_of_read? (by rw [Env.read?_declare, if_pos rfl])
      · exact hgrown.binds (hns y hy)
  | @read ns name h =>
      unfold Eval.read
      cases hread : w.env.read? name with
      | some a => exact ⟨hsame, hns⟩
      | none =>
          rintro _ ⟨⟩
          have hnot := (Env.read?_eq_none_iff _ _).1 hread
          exact ⟨⟨_, h.resolve_left fun hmem => hnot (hns name hmem)⟩, hnot⟩
  | @write ns name value h =>
      unfold Eval.write
      cases hwrite : w.env.write? name value with
      | some env =>
          have hgrown := Env.grown_of_names (Env.names_of_write? hwrite)
          exact ⟨hgrown, fun y hy => hgrown.binds (hns y hy)⟩
      | none =>
          rintro _ ⟨⟩
          have hread := (Env.write?_eq_none_iff _ _ _).1 hwrite
          have hnot := (Env.read?_eq_none_iff _ _).1 hread
          exact ⟨⟨_, h.resolve_left fun hmem => hnot (hns name hmem)⟩, hnot⟩
  | inFrame _ ih =>
      have hpush := ih (w := { w with env := w.env.push }) (fun y hy => Env.binds_push (hns y hy))
        (Env.grown_of_names rfl)
      refine ensures_inFrame (hpush.mono ?_ ?_)
      · rintro _ v ⟨hgrown, -⟩
        have hpop := Env.grown_of_names hgrown.names_pop
        exact ⟨hpop, fun y hy => hpop.binds (hns y hy)⟩
      · intro f v hf y hy
        obtain ⟨hfree, hnot⟩ := hf y hy
        exact ⟨hfree, fun hbinds => hnot (Env.binds_push hbinds)⟩
  | print text line =>
      rcases print_cases text line w with ⟨host, -, h⟩ | ⟨reason, host, -, h⟩
      · rw [h]
        exact ⟨hsame, hns⟩
      · rw [h]
        exact fun y hy => Fault.noConfusion hy
  | forget _ hsub ih =>
      refine (ih hns hsame).mono ?_ fun _ _ hf => hf
      rintro a v ⟨hgrown, hms⟩
      exact ⟨hgrown, fun y hy => hms y (hsub hy)⟩

/-- A program that neither loads nor executes other texts fails to find a name only
if the name occurs free in it and no frame binds it at the start. So if all free
names can be seen at the start, every name is found, however loops and branches
go. -/
theorem nameNotFound_of_ends {t : Tree} (hself : t.isSelfContained) (w : World H) :
    (∀ x v, t.Ends w (.fault (.nameNotFound x) v) →
      x ∈ t.freeNames ∧ ∀ f ∈ w.env.frames, x ∉ f.names) ∧
    ((∀ x ∈ t.freeNames, w.env.read? x ≠ none) →
      ∀ x v, ¬ t.Ends w (.fault (.nameNotFound x) v)) := by
  have hfault (x : String) (v : World H) (h : t.Ends w (.fault (.nameNotFound x) v)) :
      x ∈ t.freeNames ∧ ¬ w.env.Binds x := by
    obtain ⟨-, n, hn⟩ := h
    have hscoped : Scoped (H := H) t.free [] (eval n t) (t.declared ++ []) :=
      scoped_eval n hself fun o ho => .inr ho
    have hfinds := hscoped.finds (w := w) (by simp)
    rw [hn] at hfinds
    obtain ⟨⟨a, hmem⟩, hnot⟩ := hfinds x rfl
    exact ⟨List.mem_map_of_mem hmem, hnot⟩
  constructor
  · intro x v h
    obtain ⟨hfree, hnot⟩ := hfault x v h
    exact ⟨hfree, fun f hf hx => hnot ⟨f, hf, hx⟩⟩
  · intro hseen x v h
    obtain ⟨hfree, hnot⟩ := hfault x v h
    exact hseen x hfree ((Env.read?_eq_none_iff _ _).2 hnot)

/-- What the inner block declares does not reach past it. -/
theorem nameNotFound_of_ends_block :
    let y : Token := ⟨.ident, 1, some (.str "y")⟩
    let t : Tree := .scope [.scope [.define y (.leaf y)], .print (.leaf y)]
    let w : World := .initial (.ofFiles fun _ => none)
    let w' : World := { w with env := ⟨[[("y", .bool true)]]⟩ }
    Tree.ofText "\x7blet y=y;\x7dprint y;" = .ok t ∧ t.isSelfContained ∧
      t.freeNames = ["y"] ∧ t.Ends w (.fault (.nameNotFound "y") w) ∧
      (∀ f ∈ w.env.frames, "y" ∉ f.names) ∧ ∀ x v, ¬ t.Ends w' (.fault (.nameNotFound x) v) := by
  intro y t w w'
  have hlex : lex "\x7blet y=y;\x7dprint y;" = .ok [⟨.lbrace, 1, none⟩, ⟨.kwLet, 1, none⟩, y,
      ⟨.assign, 1, none⟩, y, ⟨.semi, 1, none⟩, ⟨.rbrace, 1, none⟩, ⟨.kwPrint, 1, none⟩, y,
      ⟨.semi, 1, none⟩, ⟨.eof, 1, none⟩] := by decide +kernel
  have htree : Tree.ofText "\x7blet y=y;\x7dprint y;" = .ok t := by
    rw [Tree.ofText, hlex]
    rfl
  have hself : t.isSelfContained := rfl
  have hends : t.Ends w (.fault (.nameNotFound "y") w) := ⟨by simp, 5, rfl⟩
  have hseen : ∀ x ∈ t.freeNames, w'.env.read? x ≠ none := by decide
  exact ⟨htree, hself, rfl, hends, ((nameNotFound_of_ends hself w).1 "y" w hends).2,
    (nameNotFound_of_ends hself w').2 hseen⟩

end Quill
