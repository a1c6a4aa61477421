import Quill.Proofs.FreeNames

/-!
A block touches its free names and no others. Everything else that it works with
lives in frames of its own, which are gone when it ends. So outside of it only the
free names that it assigns to can change, and it depends on the values of its free
names alone.

Both come from one comparison of two runs, over stacks that have the same frames on
top and whatever frames below. Names that are certain to be declared are found in
the frames on top, and these stay the same in both runs; any other name is free,
and on free names the frames below agree.
-/

namespace Quill

namespace Env

/-! ### Stacks in two parts -/

theorem read?_append (top base : List Frame) (x : String) :
    read? ⟨top ++ base⟩ x = (read? ⟨top⟩ x).or (read? ⟨base⟩ x) :=
  List.findSome?_append

theorem Grown.ne_nil {fs fs' : List Frame} (h : Grown ⟨fs⟩ ⟨fs'⟩) (hfs : fs ≠ []) : fs' ≠ [] := by
  cases h with
  | none => exact hfs
  | first f => simp
  | frames _ _ => simp

/-- A write that finds its name in the upper part of a stack leaves the lower part
alone. -/
theorem write?_append_of_some {top top' : List Frame} {x : String} {v : Value}
    (h : write? ⟨top⟩ x v = some ⟨top'⟩) (base : List Frame) :
    write? ⟨top ++ base⟩ x v = some ⟨top' ++ base⟩ := by
  induction top generalizing top' with
  | nil => cases h
  | cons f top ih =>
      rw [List.cons_append]
      cases hget : f.get? x with
      | some u =>
          rw [write?_cons_of_some hget] at h ⊢
          cases h
          rfl
      | none =>
          rw [write?_cons_of_none hget] at h ⊢
          obtain ⟨d, hd, hframes⟩ := Option.map_eq_some_iff.1 h
          cases hframes
          rw [ih hd]
          rfl

/-- A write that does not find its name in the upper part goes to the lower one. -/
theorem write?_append_of_none {top : List Frame} {x : String} {v : Value}
    (h : write? ⟨top⟩ x v = none) (base : List Frame) :
    write? ⟨top ++ base⟩ x v = (write? ⟨base⟩ x v).map fun e => ⟨top ++ e.frames⟩ := by
  induction top with
  | nil => cases hbase : write? ⟨base⟩ x v <;> simp [hbase]
  | cons f top ih =>
      rw [List.cons_append]
      cases hget : f.get? x with
      | some u =>
          rw [write?_cons_of_some hget] at h
          cases h
      | none =>
          rw [write?_cons_of_none hget] at h ⊢
          rw [ih (Option.map_eq_none_iff.1 h), Option.map_map]
          rfl

/-- A write changes the value of its name only, in whatever frame. -/
theorem get?_of_write? {e e' : Env} {x y : String} {v : Value} (h : e.write? x v = some e')
    (hy : y ≠ x) : e'.frames.map (Frame.get? · y) = e.frames.map (Frame.get? · y) := by
  obtain ⟨fs⟩ := e
  induction fs generalizing e' with
  | nil => cases h
  | cons f fs ih =>
      cases hget : f.get? x with
      | some u =>
          rw [write?_cons_of_some hget] at h
          cases h
          simp only [List.map_cons, Frame.get?_put, if_neg hy]
      | none =>
          rw [write?_cons_of_none hget] at h
          obtain ⟨d, hd, rfl⟩ := Option.map_eq_some_iff.1 h
          rw [List.map_cons, List.map_cons, ih hd]

/-! ### Stacks side by side -/

/-- The same frames on top, with a property, over related frames below. -/
inductive Over (T : List Frame → Prop) (B : List Frame → List Frame → Prop) : Env → Env → Prop
  | mk {top base base' : List Frame} (htop : T top) (hbase : B base base') :
      Over T B ⟨top ++ base⟩ ⟨top ++ base'⟩

/-- Frame for frame the names have their old values, except those that are assigned
to where they occur free. -/
def Kept (free : List (Access × String)) (base base₁ : List Frame) : Prop :=
  ∀ x, (.assignment, x) ∉ free → base₁.map (Frame.get? · x) = base.map (Frame.get? · x)

/-- Free names read the same. -/
def AgreeOn (free : List (Access × String)) (base base' : List Frame) : Prop :=
  ∀ o ∈ free, read? ⟨base⟩ o.2 = read? ⟨base'⟩ o.2

/-- What two runs have made of the frames below. -/
structure Bases (free : List (Access × String)) (base base' base₁ base₁' : List Frame) :
    Prop where
  kept : Kept free base base₁
  kept' : Kept free base' base₁'
  agree : AgreeOn free base₁ base₁'

/-- What has been made of the frames on top: they have the old names, and these are
among them. -/
structure Top (ms : List String) (top top₁ : List Frame) : Prop where
  grown : Grown ⟨top⟩ ⟨top₁⟩
  binds : ∀ y ∈ ms, Binds ⟨top₁⟩ y

theorem Over.mono {T T' : List Frame → Prop} {B B' : List Frame → List Frame → Prop} {e e' : Env}
    (h : Over T B e e') (hT : ∀ top, T top → T' top)
    (hB : ∀ base base', B base base' → B' base base') : Over T' B' e e' := by
  cases h with
  | mk htop hbase => exact .mk (hT _ htop) (hB _ _ hbase)

section

variable {free : List (Access × String)} {top base base' : List Frame} {ns ms : List String}

theorem Bases.refl (h : AgreeOn free base base') : Bases free base base' base base' :=
  ⟨fun _ _ => rfl, fun _ _ => rfl, h⟩

theorem Bases.trans {base₁ base₁' base₂ base₂' : List Frame}
    (h : Bases free base base' base₁ base₁') (h' : Bases free base₁ base₁' base₂ base₂') :
    Bases free base base' base₂ base₂' where
  kept x hx := (h'.kept x hx).trans (h.kept x hx)
  kept' x hx := (h'.kept' x hx).trans (h.kept' x hx)
  agree := h'.agree

theorem Top.of_names {top₁ : List Frame} (hns : ∀ y ∈ ns, Binds ⟨top⟩ y)
    (h : top₁.map Frame.names = top.map Frame.names) : Top ns top top₁ :=
  have hgrown : Grown ⟨top⟩ ⟨top₁⟩ := grown_of_names h
  ⟨hgrown, fun y hy => hgrown.binds (hns y hy)⟩

/-- A name that is declared or free reads the same in both stacks. -/
theorem AgreeOn.read?_append (h : AgreeOn free base base') (hns : ∀ y ∈ ns, Binds ⟨top⟩ y)
    {a : Access} {x : String} (hx : x ∈ ns ∨ (a, x) ∈ free) :
    read? ⟨top ++ base⟩ x = read? ⟨top ++ base'⟩ x := by
  rw [Env.read?_append, Env.read?_append]
  cases htop : read? ⟨top⟩ x with
  | some v => rfl
  | none =>
      have hnot := (read?_eq_none_iff _ _).1 htop
      rw [h (a, x) (hx.resolve_left fun hmem => hnot (hns x hmem))]

/-- A write to a free name does the same to frames that agree on it. -/
theorem AgreeOn.write? (h : AgreeOn free base base') {x : String}
    (hx : (.assignment, x) ∈ free) (v : Value) :
    (write? ⟨base⟩ x v = none ∧ write? ⟨base'⟩ x v = none) ∨
    ∃ base₁ base₁', write? ⟨base⟩ x v = some ⟨base₁⟩ ∧ write? ⟨base'⟩ x v = some ⟨base₁'⟩ ∧
      Bases free base base' base₁ base₁' := by
  have hnone : Env.write? ⟨base⟩ x v = none ↔ Env.write? ⟨base'⟩ x v = none := by
    rw [write?_eq_none_iff, write?_eq_none_iff, h _ hx]
  cases hb : Env.write? ⟨base⟩ x v with
  | none => exact .inl ⟨rfl, hnone.1 hb⟩
  | some d =>
      cases hb' : Env.write? ⟨base'⟩ x v with
      | none =>
          rw [hnone.2 hb'] at hb
          cases hb
      | some d' =>
          refine .inr ⟨d.frames, d'.frames, rfl, rfl, ⟨?_, ?_, ?_⟩⟩
          · intro y hy
            exact get?_of_write? hb fun hyx => hy (hyx ▸ hx)
          · intro y hy
            exact get?_of_write? hb' fun hyx => hy (hyx ▸ hx)
          · intro o ho
            rw [read?_of_write? hb, read?_of_write? hb', h o ho]

/-- A write to a name that is declared or free does the same to both stacks. -/
theorem AgreeOn.write?_append (h : AgreeOn free base base') (hns : ∀ y ∈ ns, Binds ⟨top⟩ y)
    {x : String} (hx : x ∈ ns ∨ (.assignment, x) ∈ free) (v : Value) :
    (Env.write? ⟨top ++ base⟩ x v = none ∧ Env.write? ⟨top ++ base'⟩ x v = none) ∨
    ∃ d d', Env.write? ⟨top ++ base⟩ x v = some d ∧ Env.write? ⟨top ++ base'⟩ x v = some d' ∧
      Over (Top ns top) (Bases free base base') d d' := by
  cases htop : Env.write? ⟨top⟩ x v with
  | some d =>
      obtain ⟨top₁⟩ := d
      exact .inr ⟨_, _, write?_append_of_some htop base, write?_append_of_some htop base',
        .mk (.of_names hns (names_of_write? htop)) (.refl h)⟩
  | none =>
      have hnot := (read?_eq_none_iff _ _).1 ((write?_eq_none_iff _ _ _).1 htop)
      have hfree := hx.resolve_left fun hmem => hnot (hns x hmem)
      rw [write?_append_of_none htop, write?_append_of_none htop]
      rcases h.write? hfree v with ⟨hb, hb'⟩ | ⟨base₁, base₁', hb, hb', hbases⟩
      · rw [hb, hb']
        exact .inl ⟨rfl, rfl⟩
      · rw [hb, hb']
        exact .inr ⟨_, _, rfl, rfl, .mk (.of_names hns rfl) hbases⟩

/-- Declaring happens in the frames on top. -/
theorem over_declare (h : AgreeOn free base base') (htop : top ≠ [])
    (hns : ∀ y ∈ ns, Binds ⟨top⟩ y) (x : String) :
    Over (Top (x :: ns) top) (Bases free base base') (declare ⟨top ++ base⟩ x)
      (declare ⟨top ++ base'⟩ x) := by
  obtain ⟨f, fs, rfl⟩ := List.exists_cons_of_ne_nil htop
  have hgrown : Grown ⟨f :: fs⟩ ⟨f.put x .nil :: fs⟩ := grown_declare ⟨f :: fs⟩ x
  have hbinds : ∀ y ∈ x :: ns, Binds ⟨f.put x .nil :: fs⟩ y := by
    intro y hy
    rcases List.mem_cons.1 hy with rfl | hy
    · exact binds_of_read? (by rw [read?_cons, Frame.get?_put, if_pos rfl]; rfl)
    · exact hgrown.binds (hns y hy)
  have htop' : Top (x :: ns) (f :: fs) (f.put x .nil :: fs) := ⟨hgrown, hbinds⟩
  exact Over.mk htop' (.refl h)

/-- When the frame that was added is dropped, those on top have the names they had
before. -/
theorem Over.pop {B : List Frame → List Frame → Prop} {e e' : Env}
    (h : Over (Top ms ([] :: top)) B e e') :
    Over (fun top₁ => top₁.map Frame.names = top.map Frame.names) B e.pop e'.pop := by
  cases h with
  | mk htop hbase =>
      obtain ⟨hgrown, -⟩ := htop
      cases hgrown with
      | frames _ hfs => exact .mk hfs hbase

end

end Env

/-! ### Runs side by side -/

variable {H : Type}

/-- Two outcomes have the same result, and leave worlds that are related in one way
after a success and in another after a fault. -/
inductive Outcome.Paired {α : Type} (P Q : World H → World H → Prop) :
    Outcome α H → Outcome α H → Prop
  | done (a : α) {w v : World H} (h : P w v) : Paired P Q (.done a w) (.done a v)
  | fault (f : Fault) {w v : World H} (h : Q w v) : Paired P Q (.fault f w) (.fault f v)
  | exhausted : Paired P Q .exhausted .exhausted

theorem Outcome.Paired.mono {α : Type} {P P' Q Q' : World H → World H → Prop} {o p : Outcome α H}
    (h : Paired P Q o p) (hP : ∀ w v, P w v → P' w v) (hQ : ∀ w v, Q w v → Q' w v) :
    Paired P' Q' o p := by
  cases h with
  | done a h => exact .done a (hP _ _ h)
  | fault f h => exact .fault f (hQ _ _ h)
  | exhausted => exact .exhausted

theorem Outcome.Paired.matches {α : Type} {P Q R : World H → World H → Prop} {o p : Outcome α H}
    (h : Paired P Q o p) (hP : ∀ w v, P w v → R w v) (hQ : ∀ w v, Q w v → R w v) :
    Matches R o p := by
  cases h with
  | done a h => exact .done a (hP _ _ h)
  | fault f h => exact .fault f (hQ _ _ h)
  | exhausted => exact .exhausted

/-- Stacks side by side, and one and the same host. -/
def World.Over (T : List Frame → Prop) (B : List Frame → List Frame → Prop) (w v : World H) :
    Prop :=
  w.env.Over T B v.env ∧ w.host = v.host

open Env

namespace Eval

theorem paired_bind {α β : Type} {P P' Q : World H → World H → Prop} {x : Eval H α}
    {f : α → Eval H β} {w v : World H} (hx : Outcome.Paired P Q (x w) (x v))
    (hf : ∀ a w v, P w v → Outcome.Paired P' Q (f a w) (f a v)) :
    Outcome.Paired P' Q ((x >>= f) w) ((x >>= f) v) := by
  simp only [Bind.bind]
  generalize x w = o at hx ⊢
  generalize x v = p at hx ⊢
  cases hx with
  | done a h => exact hf a _ _ h
  | fault f h => exact .fault f h
  | exhausted => exact .exhausted

variable {free : List (Access × String)} {top base base' : List Frame} {ns ms : List String}

theorem paired_inFrame {B : List Frame → List Frame → Prop} {x : Eval H Unit} {host : H}
    (h : Outcome.Paired (World.Over (Top ms ([] :: top)) B) (World.Over (Top [] ([] :: top)) B)
      (x ⟨⟨[] :: top ++ base⟩, host⟩) (x ⟨⟨[] :: top ++ base'⟩, host⟩)) :
    Outcome.Paired
      (World.Over (fun top₁ => top₁.map Frame.names = top.map Frame.names) B)
      (World.Over (fun top₁ => top₁.map Frame.names = top.map Frame.names) B)
      (inFrame x ⟨⟨top ++ base⟩, host⟩) (inFrame x ⟨⟨top ++ base'⟩, host⟩) := by
  simp only [inFrame, Env.push]
  rw [← List.cons_append, ← List.cons_append]
  generalize x ⟨⟨[] :: top ++ base⟩, host⟩ = o at h ⊢
  generalize x ⟨⟨[] :: top ++ base'⟩, host⟩ = p at h ⊢
  cases h with
  | done _ h => exact .done () ⟨h.1.pop, h.2⟩
  | fault f h => exact .fault f ⟨h.1.pop, h.2⟩
  | exhausted => exact .exhausted

theorem over_same (hns : ∀ y ∈ ns, Binds ⟨top⟩ y) (hagree : AgreeOn free base base')
    (host : H) : World.Over (Top ns top) (Bases free base base') ⟨⟨top ++ base⟩, host⟩
      ⟨⟨top ++ base'⟩, host⟩ :=
  ⟨.mk (.of_names hns rfl) (.refl hagree), rfl⟩

/-- What holds of frames that were already under way counts from their start. -/
theorem over_trans {top₁ base₁ base₁' : List Frame} {w v : World H} (hgrown : Grown ⟨top⟩ ⟨top₁⟩)
    (hbases : Bases free base base' base₁ base₁')
    (h : World.Over (Top ms top₁) (Bases free base₁ base₁') w v) :
    World.Over (Top ms top) (Bases free base base') w v :=
  ⟨h.1.mono (fun _ htop => ⟨hgrown.trans htop.grown, htop.binds⟩) fun _ _ => hbases.trans, h.2⟩

/-- A computation that keeps to its scope does the same to stacks that have the same
frames on top, in which the declared names are, and agree on free names below. -/
theorem Scoped.paired [HostLike H] {α : Type} {x : Eval H α} (h : Scoped free ns x ms)
    (htop : top ≠ []) (hns : ∀ y ∈ ns, Binds ⟨top⟩ y) (hagree : AgreeOn free base base')
    (host : H) :
    Outcome.Paired (World.Over (Top ms top) (Bases free base base'))
      (World.Over (Top [] top) (Bases free base base'))
      (x ⟨⟨top ++ base⟩, host⟩) (x ⟨⟨top ++ base'⟩, host⟩) := by
  induction h generalizing top base base' host with
  | pure a => exact .done a (over_same hns hagree host)
  | fail _ => exact .fault _ (over_same (by simp) hagree host)
  | outOfFuel => exact .exhausted
  | bind _ _ ihx ihf =>
      refine paired_bind (ihx htop hns hagree host) ?_
      rintro a ⟨_, host₁⟩ ⟨_, _⟩ ⟨⟨hgrown, hbases⟩, rfl⟩
      have htop₁ := hgrown.grown.ne_nil htop
      refine (ihf a htop₁ hgrown.binds hbases.agree host₁).mono ?_ ?_
      · exact fun _ _ => over_trans hgrown.grown hbases
      · exact fun _ _ => over_trans hgrown.grown hbases
  | declare name => exact .done () ⟨over_declare hagree htop hns name, rfl⟩
  | @read ns name h =>
      simp only [Eval.read, hagree.read?_append hns h]
      cases read? ⟨top ++ base'⟩ name with
      | some a => exact .done a (over_same hns hagree host)
      | none => exact .fault _ (over_same (by simp) hagree host)
  | @write ns name value h =>
      simp only [Eval.write]
      rcases hagree.write?_append hns h value with ⟨hd, hd'⟩ | ⟨d, d', hd, hd', hover⟩
      · rw [hd, hd']
        exact .fault _ (over_same (by simp) hagree host)
      · rw [hd, hd']
        exact .done () ⟨hover, rfl⟩
  | inFrame _ ih =>
      have hpush : ∀ y ∈ _, Binds ⟨[] :: top⟩ y := fun y hy => binds_push (hns y hy)
      refine (paired_inFrame (ih (by simp) hpush hagree host)).mono ?_ ?_
      · rintro w v ⟨hover, hhost⟩
        exact ⟨hover.mono (fun _ => .of_names hns) fun _ _ h => h, hhost⟩
      · rintro w v ⟨hover, hhost⟩
        exact ⟨hover.mono (fun _ => .of_names (by simp)) fun _ _ h => h, hhost⟩
  | print text line =>
      simp only [Eval.print]
      obtain ⟨r, host⟩ := HostLike.print host text
      cases r with
      | ok => exact .done () (over_same hns hagree host)
      | error reason => exact .fault _ (over_same (by simp) hagree host)
  | forget _ hsub ih =>
      refine (ih htop hns hagree host).mono ?_ fun _ _ h => h
      rintro w v ⟨hover, hhost⟩
      refine ⟨hover.mono (fun _ htop => ?_) fun _ _ h => h, hhost⟩
      exact ⟨htop.grown, fun y hy => htop.binds y (hsub hy)⟩

end Eval

open Eval

variable [HostLike H]

theorem scoped_body {body : List Tree} (hself : (Tree.scope body).isSelfContained) (n : Nat) :
    ∃ ms, Scoped (H := H) (Tree.scope body).free [] (Eval.sequence (eval n) body) ms := by
  rw [Tree.isSelfContained, Tree.isSelfContainedAll_eq_all, List.all_eq_true] at hself
  exact scoped_sequence (fun t ht _ => scoped_eval n (hself t ht)) fun o ho => .inr ho

/-- A block does the same in environments that agree on its free names, and in each
of the two it keeps all values but those of free names that it assigns to. -/
theorem matches_eval_scope {body : List Tree} (hself : (Tree.scope body).isSelfContained) (n : Nat)
    {e e' : Env} (h : AgreeOn (Tree.scope body).free e.frames e'.frames) (host : H) :
    Outcome.Matches
      (fun w v => Bases (Tree.scope body).free e.frames e'.frames w.env.frames v.env.frames ∧
        w.host = v.host)
      (eval n (.scope body) ⟨e, host⟩) (eval n (.scope body) ⟨e', host⟩) := by
  cases n with
  | zero => exact .exhausted
  | succ n =>
      obtain ⟨ms, hbody⟩ := scoped_body (H := H) hself n
      -- The frame of the block is the whole of the upper part, and nothing is left of it.
      have hframe := paired_inFrame (hbody.paired (List.cons_ne_nil [] []) (by simp) h host)
      have hscope := paired_bind (f := fun _ => pure Value.nil) hframe fun _ _ _ h =>
        .done Value.nil h
      have hleft {w v : World H} {B : List Frame → List Frame → Prop}
          (h : World.Over (fun top => top.map Frame.names = []) B w v) :
          B w.env.frames v.env.frames ∧ w.host = v.host := by
        obtain ⟨_, _⟩ := w
        obtain ⟨_, _⟩ := v
        obtain ⟨⟨htop, hbase⟩, hhost⟩ := h
        rw [List.map_eq_nil_iff.1 htop]
        exact ⟨hbase, hhost⟩
      exact hscope.matches (fun _ _ => hleft) fun _ _ => hleft

/-- A block without `load` and `exec` is confined to its free names. However it
ends, every name has its old value in every frame that was there, unless it is
assigned to where it occurs free in the block. And from two environments in which
the free names read the same, with the same host, the block is evaluated to an end
in both or in neither, with the same value or the same fault and the same host,
and the free names read the same again. -/
theorem scope_confined_to_free {body : List Tree} (hself : (Tree.scope body).isSelfContained) :
    (∀ (w : World H) o w', (Tree.scope body).Ends w o → o.world? = some w' →
      ∀ x, (.assignment, x) ∉ (Tree.scope body).free →
        w'.env.frames.map (Frame.get? · x) = w.env.frames.map (Frame.get? · x)) ∧
    (∀ e e' (host : H), (∀ x ∈ (Tree.scope body).freeNames, e.read? x = e'.read? x) →
      ((∃ o, (Tree.scope body).Ends ⟨e, host⟩ o) ↔ ∃ p, (Tree.scope body).Ends ⟨e', host⟩ p) ∧
      ∀ o p, (Tree.scope body).Ends ⟨e, host⟩ o → (Tree.scope body).Ends ⟨e', host⟩ p →
        Outcome.Matches
          (fun w v => (∀ x ∈ (Tree.scope body).freeNames, w.env.read? x = v.env.read? x) ∧
            w.host = v.host) o p) := by
  constructor
  · rintro w _ w' ⟨-, n, rfl⟩ hw' x hx
    have hagree : AgreeOn (Tree.scope body).free w.env.frames w.env.frames := fun _ _ => rfl
    have hmatches := matches_eval_scope hself n hagree w.host
    generalize eval n (.scope body) w = o at hmatches hw'
    cases hmatches with
    | done a h =>
        cases hw'
        exact h.1.kept x hx
    | fault f h =>
        cases hw'
        exact h.1.kept x hx
    | exhausted => cases hw'
  · intro e e' host h
    refine Tree.ends_of_matches fun n => ?_
    have hagree : AgreeOn (Tree.scope body).free e.frames e'.frames :=
      fun o ho => h o.2 (List.mem_map_of_mem ho)
    refine (matches_eval_scope hself n hagree host).mono fun w v hwv => ⟨fun x hx => ?_, hwv.2⟩
    obtain ⟨o, ho, rfl⟩ := List.mem_map.1 hx
    exact hwv.1.agree o ho

/-- The first assignment is to the name outside of the block and the second to the
one that is declared in between. -/
theorem scope_confined_to_free_shadowed :
    let x : Token := ⟨.ident, 1, some (.str "x")⟩
    let y : Token := ⟨.ident, 1, some (.str "y")⟩
    let body : List Tree := [.assign x (.leaf y), .declare x, .assign x (.leaf x)]
    let e : Env := ⟨[[("z", .int 2)], [("x", .int 1), ("y", .bool true)]]⟩
    let e' : Env := ⟨[[("y", .bool true)], [("x", .int 1), ("y", .nil)]]⟩
    let host : Host := .ofFiles fun _ => none
    (Tree.scope body).isSelfContained ∧
    (Tree.scope body).free = [(.use, "y"), (.assignment, "x")] ∧
    ∃ w v, (Tree.scope body).Ends ⟨e, host⟩ (.done .nil w) ∧
      (Tree.scope body).Ends ⟨e', host⟩ (.done .nil v) ∧
      w.env.frames.map (Frame.get? · "z") = [some (.int 2), none] ∧
      w.env.read? "x" = some (.bool true) ∧ v.env.read? "x" = some (.bool true) := by
  intro x y body e e' host
  have hself : (Tree.scope body).isSelfContained := rfl
  have hends : (Tree.scope body).Ends ⟨e, host⟩
      (.done .nil ⟨⟨[[("z", .int 2)], [("x", .bool true), ("y", .bool true)]]⟩, host⟩) :=
    ⟨by simp, 3, rfl⟩
  obtain ⟨hkept, hsame⟩ := scope_confined_to_free (H := Host) hself
  obtain ⟨hiff, hmatches⟩ := hsame e e' host (by decide)
  obtain ⟨p, hends'⟩ := hiff.1 ⟨_, hends⟩
  have hz := hkept _ _ _ hends rfl "z" (by decide)
  refine ⟨hself, rfl, ?_⟩
  cases hmatches _ p hends hends' with
  | done _ h => exact ⟨_, _, hends, hends', hz, rfl, (h.1 "x" (by decide)).symm⟩

end Quill
