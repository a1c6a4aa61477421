import Quill.Proofs.Blocks
import Quill.Proofs.Origins

/-!
Bindings outlast what runs among them. An evaluation drops no frames but those that
it has added itself, and takes no name out of a frame, so a name that is bound at the
start is bound at every moment of the run, in the frames in which it was and perhaps
in further ones. This holds along failures and in texts that come to be known only
while the program runs.

Two things follow. Looking for the name never fails (`bound_stays_usable`): every
fault is raised by some tree that the evaluation leads to, and in the world in which
it is raised the name is still bound. And a binding that another one hides is hidden
for as long as the evaluation lasts, so that no write gets through to it
(`hidden_keeps_value`).
-/

namespace Quill

open Eval

variable {H : Type} [HostLike H]

theorem Tree.Ends.grown {t : Tree} {w w' : World H} {o : Outcome Value H} (h : t.Ends w o)
    (hw : o.world? = some w') : Env.Grown w.env w'.env := by
  obtain ⟨-, n, rfl⟩ := h
  exact grown_of_eval hw

theorem Tree.Ends.binds {t : Tree} {w w' : World H} {a : Value} (h : t.Ends w (.done a w'))
    {x : String} (hx : w.env.Binds x) : w'.env.Binds x :=
  (h.grown rfl).binds hx

/-! ### Hidden bindings -/

namespace Env

/-- Wherever the first stack is parted, the second has a part of as many frames, with
the old names; and below it any name that is bound above has its old values. -/
def KeepsHidden (e e' : Env) : Prop :=
  ∀ x top base, e.frames = top ++ base → Binds ⟨top⟩ x →
    ∃ top' base', e'.frames = top' ++ base' ∧ Grown ⟨top⟩ ⟨top'⟩ ∧
      base'.map (Frame.get? · x) = base.map (Frame.get? · x)

namespace KeepsHidden

variable {e e' e'' : Env}

theorem refl (e : Env) : KeepsHidden e e :=
  fun _ top base hframes _ => ⟨top, base, hframes, grown_of_names rfl, rfl⟩

theorem trans (h : KeepsHidden e e') (h' : KeepsHidden e' e'') : KeepsHidden e e'' := by
  intro x top base hframes hx
  obtain ⟨top', base', hframes', hgrown, hbase⟩ := h x top base hframes hx
  obtain ⟨top'', base'', hframes'', hgrown', hbase'⟩ := h' x top' base' hframes' (hgrown.binds hx)
  exact ⟨top'', base'', hframes'', hgrown.trans hgrown', hbase'.trans hbase⟩

/-- What is declared goes into the innermost frame, which hides and is not hidden. -/
theorem declare (e : Env) (name : String) : KeepsHidden e (e.declare name) := by
  obtain ⟨fs⟩ := e
  rintro x top base rfl hx
  obtain _ | ⟨f, fs⟩ := top
  · simp [Binds] at hx
  · exact ⟨f.put name .nil :: fs, base, rfl, grown_declare ⟨f :: fs⟩ name, rfl⟩

/-- A write that finds its name above leaves the lower part alone, and one that does
not is to another name. -/
theorem write {name : String} {value : Value} (h : e.write? name value = some e') :
    KeepsHidden e e' := by
  obtain ⟨fs⟩ := e
  rintro x top base rfl hx
  cases htop : write? ⟨top⟩ name value with
  | some d =>
      obtain ⟨top'⟩ := d
      rw [write?_append_of_some htop] at h
      cases h
      exact ⟨top', base, rfl, grown_of_names (names_of_write? htop), rfl⟩
  | none =>
      have hname : x ≠ name := by
        rintro rfl
        exact (read?_eq_none_iff _ _).1 ((write?_eq_none_iff _ _ _).1 htop) hx
      rw [write?_append_of_none htop] at h
      obtain ⟨d, hd, rfl⟩ := Option.map_eq_some_iff.1 h
      exact ⟨top, d.frames, rfl, grown_of_names rfl, get?_of_write? hd hname⟩

/-- The frame that is added for a while belongs to the upper part. -/
theorem frame (h : KeepsHidden e.push e') : KeepsHidden e e'.pop := by
  intro x top base hframes hx
  obtain ⟨top', base', hframes', hgrown, hbase⟩ :=
    h x ([] :: top) base (by rw [push, hframes]; rfl) (binds_push hx)
  cases hgrown with
  | @frames _ f' _ fs' _ hfs =>
      exact ⟨fs', base', by rw [pop, hframes']; rfl, grown_of_names hfs, hbase⟩

end KeepsHidden

end Env

theorem respected_keepsHidden : Respected fun w w' : World H => Env.KeepsHidden w.env w'.env where
  refl w := .refl w.env
  trans := .trans
  declare w name := .declare w.env name
  write h := .write h
  print w _ := .refl w.env
  load w _ := .refl w.env
  frame := .frame

/-- A name that is bound further in keeps its value, whatever is evaluated with whatever
host and however that ends. Frames are counted from the innermost outward; their number
stays the same, so the frame is the same one also when counted the other way. -/
theorem hidden_keeps_value {t : Tree} {w w' : World H} {o : Outcome Value H} (h : t.Ends w o)
    (hw : o.world? = some w') {x : String} {i j : Nat} {f g : Frame} (hij : j < i)
    (hf : w.env.frames[i]? = some f) (hg : w.env.frames[j]? = some g) (hx : x ∈ g.names) :
    w'.env.depth = w.env.depth ∧
      ∃ f', w'.env.frames[i]? = some f' ∧ f'.get? x = f.get? x := by
  have hmem : g ∈ w.env.frames.take i := by
    refine List.mem_of_getElem? (i := j) ?_
    rw [List.getElem?_take_of_lt hij, hg]
  have hkeeps : w.env.KeepsHidden w'.env := by
    obtain ⟨-, n, rfl⟩ := h
    exact respected_keepsHidden.of_built (built_eval n t) hw
  obtain ⟨top, base, hframes, hgrown, hbase⟩ :=
    hkeeps x _ _ (List.take_append_drop i w.env.frames).symm ⟨g, hmem, hx⟩
  have hi : i < w.env.frames.length := (List.getElem?_eq_some_iff.1 hf).1
  have htop : top.length = i := by
    have hdepth := hgrown.depth_eq (List.ne_nil_of_mem hmem)
    simpa [Env.depth, Nat.min_eq_left (Nat.le_of_lt hi)] using hdepth
  have hlength : base.length = (w.env.frames.drop i).length := by
    simpa using congrArg List.length hbase
  refine ⟨?_, ?_⟩
  · rw [Env.depth, Env.depth, hframes, List.length_append, htop, hlength, List.length_drop]
    omega
  · have hhead : (base.map (Frame.get? · x))[0]? = some (f.get? x) := by
      rw [hbase, List.getElem?_map, List.getElem?_drop, Nat.add_zero, hf]
      rfl
    rw [List.getElem?_map] at hhead
    obtain ⟨f', hf', hget⟩ := Option.map_eq_some_iff.1 hhead
    refine ⟨f', ?_, hget⟩
    rw [hframes, List.getElem?_append_right (Nat.le_of_eq htop), htop, Nat.sub_self, hf']

/-- An executed text writes to the name in the innermost frame and then fails. -/
theorem hidden_keeps_value_exec :
    let w : World :=
      ⟨⟨[[("x", .int 1)], [("y", .nil)], [("x", .int 2)]]⟩, .ofFiles fun _ => none⟩
    let t : Tree := .exec (.leaf ⟨.string, 1, some (.str "x=y;x=z;")⟩)
    ∃ w', t.Ends w (.fault (.nameNotFound "z") w') ∧ w'.env.read? "x" = some .nil ∧
      w'.env.depth = 3 ∧ ∃ f, w'.env.frames[2]? = some f ∧ f.get? "x" = some (.int 2) := by
  intro w t
  let x : Token := ⟨.ident, 1, some (.str "x")⟩
  let y : Token := ⟨.ident, 1, some (.str "y")⟩
  let z : Token := ⟨.ident, 1, some (.str "z")⟩
  have hlex : lex "x=y;x=z;" = .ok [x, ⟨.assign, 1, none⟩, y, ⟨.semi, 1, none⟩, x,
      ⟨.assign, 1, none⟩, z, ⟨.semi, 1, none⟩, ⟨.eof, 1, none⟩] := by decide +kernel
  have htree : Tree.ofText "x=y;x=z;" =
      .ok (.scope [.assign x (.leaf y), .assign x (.leaf z)]) := by
    rw [Tree.ofText, hlex]
    rfl
  have hends : t.Ends w (.fault (.nameNotFound "z")
      { w with env := ⟨[[("x", .nil)], [("y", .nil)], [("x", .int 2)]]⟩ }) := by
    refine ⟨by simp, 4, ?_⟩
    change interpret (eval 3) "x=y;x=z;" w = _
    rw [interpret, htree]
    rfl
  obtain ⟨hdepth, hvalue⟩ := hidden_keeps_value hends rfl (x := "x") (i := 2) (j := 0) (by decide)
    rfl rfl (by decide)
  exact ⟨_, hends, rfl, hdepth, hvalue⟩

/-! ### Names that are bound -/

namespace Tree

variable {t u : Tree} {w v : World H} {x : String}

theorem Enters.binds (h : t.Enters w u v) (hx : w.env.Binds x) : v.env.Binds x := by
  cases h with
  | member hbefore =>
      have hgrown := respected_grown.of_built (built_sequence (built_eval _) _)
        (congrArg Outcome.world? hbefore)
      exact hgrown.binds (Env.binds_push hx)
  | init _ => exact (Env.grown_declare _ _).binds hx
  | branchCond => exact hx
  | branchBody hcond _ => exact hcond.binds hx
  | loopCond => exact hx
  | loopBody hcond _ => exact hcond.binds hx
  | nextRound hcond _ hbody => exact hbody.binds (hcond.binds hx)
  | printed => exact hx
  | path => exact hx
  | text => exact hx
  | program hands _ =>
      cases hands with
      | load harg _ => exact harg.binds hx
      | exec harg => exact harg.binds hx
  | value => exact hx
  | left => exact hx
  | right hleft => exact hleft.binds hx
  | operand => exact hx

/-- What is bound at the start is bound wherever the evaluation leads. -/
theorem Visits.binds (h : t.Visits w u v) (hx : w.env.Binds x) : v.env.Binds x := by
  induction h with
  | here t w => exact hx
  | inside henters _ ih => exact ih (henters.binds hx)

/-- No tree fails to find a name that is bound. -/
theorem Raises.not_binds (h : t.Raises w (.nameNotFound x)) : ¬ w.env.Binds x := by
  generalize hfault : Fault.nameNotFound x = f at h
  cases h with
  | declare _ => exact Fault.noConfusion hfault
  | define _ => exact Fault.noConfusion hfault
  | target _ => exact Fault.noConfusion hfault
  | unbound _ hvalue hwrite =>
      cases hfault
      intro hx
      have hread := (Env.write?_eq_none_iff _ _ _).1 hwrite
      exact (Env.read?_eq_none_iff _ _).1 hread (hvalue.binds hx)
  | output => cases hfault
  | path => cases hfault
  | text => cases hfault
  | file => cases hfault
  | program _ hsource =>
      subst hfault
      cases isOfText_of_ofText hsource
  | @binary op _ _ a b _ z _ _ hop =>
      -- Operators look for no names, so this is no fault of theirs.
      have hfinds := (scoped_binary (H := H) op a b : Scoped [] [] _ []).finds (w := z) (by simp)
      rw [hop] at hfinds
      obtain ⟨⟨_, hmem⟩, -⟩ := hfinds x hfault.symm
      cases hmem
  | @unary op _ a _ z _ _ hop =>
      have hfinds := (scoped_unary (H := H) op a : Scoped [] [] _ []).finds (w := z) (by simp)
      rw [hop] at hfinds
      obtain ⟨⟨_, hmem⟩, -⟩ := hfinds x hfault.symm
      cases hmem
  | @leaf token _ _ _ hleaf =>
      have hscoped : Scoped (H := H) (Tree.leaf token).free [] (Eval.leaf token) [] :=
        scoped_leaf fun _ => .inr
      have hfinds := hscoped.finds (w := w) (by simp)
      rw [hleaf] at hfinds
      exact (hfinds x hfault.symm).2

theorem Ends.not_binds (h : t.Ends w (.fault (.nameNotFound x) v)) : ¬ w.env.Binds x := by
  obtain ⟨-, n, hn⟩ := h
  obtain ⟨u, z, hvisits, hraises⟩ := exists_raises hn
  exact fun hx => hraises.not_binds (hvisits.binds hx)

/-- A declaration leads to its initial value alone, which has the name bound. -/
theorem Ends.ne_nameNotFound_of_define {name : Token} {init : Tree}
    (hname : name.name? = some x) :
    ¬ (Tree.define name init).Ends w (.fault (.nameNotFound x) v) := by
  rintro ⟨-, n, hn⟩
  obtain ⟨u, z, hvisits, hraises⟩ := exists_raises hn
  cases hvisits with
  | here =>
      generalize hfault : Fault.nameNotFound x = f at hraises
      cases hraises with
      | define _ => exact Fault.noConfusion hfault
      | program hands _ => cases hands
  | inside henters hrest =>
      cases henters with
      | init hname' =>
          rw [hname] at hname'
          cases hname'
          have hbinds : (w.env.declare x).Binds x :=
            Env.binds_of_read? (by rw [Env.read?_declare, if_pos rfl])
          exact hraises.not_binds (hrest.binds hbinds)
      | program hands _ => cases hands

theorem Ends.ne_nameNotFound_of_declare {name : Token} :
    ¬ (Tree.declare name).Ends w (.fault (.nameNotFound x) v) := by
  rintro ⟨-, n, hn⟩
  obtain ⟨u, z, hvisits, hraises⟩ := exists_raises hn
  cases hvisits with
  | here =>
      generalize hfault : Fault.nameNotFound x = f at hraises
      cases hraises with
      | declare _ => exact Fault.noConfusion hfault
      | program hands _ => cases hands
  | inside henters _ =>
      cases henters with
      | program hands _ => cases hands

end Tree

/-- A name that is bound stays usable. On no host does an evaluation that starts with the
name bound in some frame fail for want of it, and the name is bound when it ends, however
it ends. And a declaration of a name does not fail for want of this name, whatever the
initial value and whatever the frames, be there none at all. -/
theorem bound_stays_usable (w : World H) :
    (∀ (t : Tree) (x : String), w.env.Binds x →
      (∀ v, ¬ t.Ends w (.fault (.nameNotFound x) v)) ∧
      ∀ (o : Outcome Value H) (v : World H), t.Ends w o → o.world? = some v → v.env.Binds x) ∧
    (∀ (name : Token) (x : String), name.name? = some x → ∀ v,
      ¬ (Tree.declare name).Ends w (.fault (.nameNotFound x) v) ∧
      ∀ init, ¬ (Tree.define name init).Ends w (.fault (.nameNotFound x) v)) := by
  refine ⟨fun t x hx => ⟨fun v h => h.not_binds hx, fun o v h hv => (h.grown hv).binds hx⟩, ?_⟩
  intro name x hname v
  exact ⟨Tree.Ends.ne_nameNotFound_of_declare,
    fun init => Tree.Ends.ne_nameNotFound_of_define hname⟩

/-- The text that is executed declares the name in a block and looks for it behind the
block; and a name is its own initial value in an environment without frames. -/
theorem bound_stays_usable_exec :
    let w : World := ⟨⟨[[], [("x", .int 1)]]⟩, .ofFiles fun _ => none⟩
    let t : Tree := .exec (.leaf ⟨.string, 1, some (.str "\x7blet x;\x7dx;y;")⟩)
    let z : Token := ⟨.ident, 1, some (.str "z")⟩
    let w₀ : World := ⟨⟨[]⟩, .ofFiles fun _ => none⟩
    w.env.Binds "x" ∧ t.Ends w (.fault (.nameNotFound "y") w) ∧
      (∀ v, ¬ t.Ends w (.fault (.nameNotFound "x") v)) ∧
      z.name? = some "z" ∧
      (Tree.define z (.leaf z)).Ends w₀ (.done .nil ⟨⟨[[("z", .nil)]]⟩, w₀.host⟩) ∧
      ∀ v, ¬ (Tree.define z (.leaf z)).Ends w₀ (.fault (.nameNotFound "z") v) := by
  intro w t z w₀
  let x : Token := ⟨.ident, 1, some (.str "x")⟩
  let y : Token := ⟨.ident, 1, some (.str "y")⟩
  have hlex : lex "\x7blet x;\x7dx;y;" = .ok [⟨.lbrace, 1, none⟩, ⟨.kwLet, 1, none⟩, x,
      ⟨.semi, 1, none⟩, ⟨.rbrace, 1, none⟩, x, ⟨.semi, 1, none⟩, y, ⟨.semi, 1, none⟩,
      ⟨.eof, 1, none⟩] := by decide +kernel
  have htree : Tree.ofText "\x7blet x;\x7dx;y;" =
      .ok (.scope [.scope [.declare x], .leaf x, .leaf y]) := by
    rw [Tree.ofText, hlex]
    rfl
  have hends : t.Ends w (.fault (.nameNotFound "y") w) := by
    refine ⟨by simp, 5, ?_⟩
    change interpret (eval 4) "\x7blet x;\x7dx;y;" w = _
    rw [interpret, htree]
    rfl
  have hbinds : w.env.Binds "x" := ⟨[("x", .int 1)], by simp [w], by decide⟩
  have hname : z.name? = some "z" := rfl
  exact ⟨hbinds, hends, ((bound_stays_usable w).1 t "x" hbinds).1, hname, ⟨by simp, 2, rfl⟩,
    fun v => ((bound_stays_usable w₀).2 z "z" hname v).2 (.leaf z)⟩

end Quill
