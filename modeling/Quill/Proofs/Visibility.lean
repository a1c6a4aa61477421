import Quill.Proofs.Effects

/-!
Evaluation depends on what can be seen and on nothing else. Two environments have
the same view if every name reads the same in both; how the bindings are spread
over frames, and which others are hidden beneath them, may differ.

A program can uncover what is hidden by dropping frames, so equal views alone are
not kept along a run. But it drops no frames except those it has added itself,
and these are the same in both runs, frame for frame. The relation that is kept
is therefore: so many equal frames on top, and equal views below them.
-/

namespace Quill

namespace Env

/-- Every name reads the same in both environments. -/
def SameView (e e' : Env) : Prop := ∀ name, e.read? name = e'.read? name

/-- The same frames on top, as many as the number says, and the same view of what
is below them. -/
inductive Shares : Nat → Env → Env → Prop
  | view {e e' : Env} (h : SameView e e') : Shares 0 e e'
  | frame (f : Frame) {k : Nat} {fs fs' : List Frame} (h : Shares k ⟨fs⟩ ⟨fs'⟩) :
      Shares (k + 1) ⟨f :: fs⟩ ⟨f :: fs'⟩

namespace Shares

variable {k : Nat} {e e' : Env}

theorem sameView (h : Shares k e e') : SameView e e' := by
  induction h with
  | view h => exact h
  | frame f _ ih =>
      intro x
      rw [read?_cons, read?_cons, ih x]

theorem push (h : Shares k e e') : Shares (k + 1) e.push e'.push := .frame [] h

theorem pop (h : Shares (k + 1) e e') : Shares k e.pop e'.pop := by
  cases h with
  | frame f h => exact h

theorem declare (h : Shares k e e') (x : String) : Shares k (e.declare x) (e'.declare x) := by
  cases h with
  | view h =>
      refine .view fun y => ?_
      rw [read?_declare, read?_declare, h y]
  | frame f h => exact .frame (f.put x .nil) h

/-- A write finds its name in both or in neither, and if it is found, then in the
same added frame or below all of them. -/
theorem write? (h : Shares k e e') (x : String) (v : Value) :
    (e.write? x v = none ∧ e'.write? x v = none) ∨
    ∃ d d', e.write? x v = some d ∧ e'.write? x v = some d' ∧ Shares k d d' := by
  induction h with
  | @view e e' h =>
      cases hd : e.write? x v with
      | none =>
          have hread := (write?_eq_none_iff e x v).1 hd
          rw [h x] at hread
          exact .inl ⟨rfl, (write?_eq_none_iff e' x v).2 hread⟩
      | some d =>
          cases hd' : e'.write? x v with
          | none =>
              have hread := (write?_eq_none_iff e' x v).1 hd'
              rw [← h x, ← write?_eq_none_iff e x v, hd] at hread
              cases hread
          | some d' =>
              refine .inr ⟨d, d', rfl, rfl, .view fun y => ?_⟩
              rw [read?_of_write? hd, read?_of_write? hd', h y]
  | @frame f k fs fs' h ih =>
      cases hget : f.get? x with
      | some u =>
          rw [write?_cons_of_some hget, write?_cons_of_some hget]
          exact .inr ⟨_, _, rfl, rfl, .frame (f.put x v) h⟩
      | none =>
          rw [write?_cons_of_none hget, write?_cons_of_none hget]
          rcases ih with ⟨hd, hd'⟩ | ⟨d, d', hd, hd', hshares⟩
          · rw [hd, hd']
            exact .inl ⟨rfl, rfl⟩
          · rw [hd, hd']
            exact .inr ⟨_, _, rfl, rfl, .frame f hshares⟩

end Shares

end Env

open Eval

variable {H : Type}

/-- The same view of the variables, and one and the same host. -/
def World.SameView (w v : World H) : Prop := w.env.SameView v.env ∧ w.host = v.host

/-- The same, with equal frames on top that were added since. -/
def World.Shares (k : Nat) (w v : World H) : Prop := w.env.Shares k v.env ∧ w.host = v.host

variable [HostLike H]

theorem lockstep_shares : Lockstep (H := H) World.Shares where
  push h := ⟨h.1.push, h.2⟩
  pop h := ⟨h.1.pop, h.2⟩
  declare h name := .done () ⟨h.1.declare name, h.2⟩
  read {k w v} h name := by
    unfold Eval.read
    rw [h.1.sameView name]
    cases v.env.read? name with
    | some a => exact .done a h
    | none => exact .fault _ h
  write {k w v} h name value := by
    unfold Eval.write
    rcases h.1.write? name value with ⟨hd, hd'⟩ | ⟨d, d', hd, hd', hshares⟩
    · rw [hd, hd']
      exact .fault _ h
    · rw [hd, hd']
      exact .done () ⟨hshares, h.2⟩
  print {k w v} h text line := by
    unfold Eval.print
    rw [h.2]
    obtain ⟨r, host⟩ := HostLike.print v.host text
    cases r with
    | ok => exact .done () ⟨h.1, rfl⟩
    | error reason => exact .fault _ ⟨h.1, rfl⟩
  loadFile {k w v} h path := by
    unfold Eval.loadFile
    rw [h.2]
    obtain ⟨r, host⟩ := HostLike.load v.host path
    cases r with
    | some source => exact .done source ⟨h.1, rfl⟩
    | none => exact .fault _ ⟨h.1, rfl⟩

theorem matches_eval {w v : World H} (h : w.SameView v) (n : Nat) (t : Tree) :
    Outcome.Matches World.SameView (eval n t w) (eval n t v) := by
  have hshares : World.Shares 0 w v := ⟨.view h.1, h.2⟩
  have heval := lockstep_shares.of_built (built_eval n t) hshares
  exact heval.mono fun _ _ h => ⟨h.1.sameView, h.2⟩

/-- Evaluation observes only what can be seen. From two environments in which
every name reads the same, with the same host, a tree is evaluated to an end in
both or in neither, to the same value or the same fault, and leaves the same host
and environments in which every name again reads the same. -/
theorem ends_of_sameView {e e' : Env} (h : ∀ name, e.read? name = e'.read? name) (host : H)
    (t : Tree) :
    ((∃ o, t.Ends ⟨e, host⟩ o) ↔ ∃ p, t.Ends ⟨e', host⟩ p) ∧
    ∀ o p, t.Ends ⟨e, host⟩ o → t.Ends ⟨e', host⟩ p → Outcome.Matches World.SameView o p :=
  Tree.ends_of_matches fun n => matches_eval (w := ⟨e, host⟩) (v := ⟨e', host⟩) ⟨h, rfl⟩ n t

/-- A block assigns to a name that hides another on one side and hides none on the
other, after a declaration of its own. -/
theorem ends_of_sameView_shadowed :
    let e : Env := ⟨[[("x", .int 1)], [("x", .int 2), ("y", .bool true)]]⟩
    let e' : Env := ⟨[[("y", .bool true), ("x", .int 1)]]⟩
    let host : Host := .ofFiles fun _ => none
    let y : Token := ⟨.ident, 1, some (.str "y")⟩
    let t : Tree := .scope [.declare y, .assign ⟨.ident, 1, some (.str "x")⟩ (.leaf y)]
    (∀ name, e.read? name = e'.read? name) ∧
    ∃ w w', t.Ends ⟨e, host⟩ (.done .nil w) ∧ t.Ends ⟨e', host⟩ (.done .nil w') ∧
      w.env.frames = [[("x", .nil)], [("x", .int 2), ("y", .bool true)]] ∧
      w'.env.read? "x" = some .nil := by
  intro e e' host y t
  have hview : ∀ name, e.read? name = e'.read? name := by
    intro name
    by_cases hx : "x" = name
    · subst hx
      rfl
    · by_cases hy : "y" = name
      · subst hy
        rfl
      · simp [e, e', Frame.get?, hx, hy]
  have hleft : t.Ends ⟨e, host⟩
      (.done .nil ⟨⟨[[("x", .nil)], [("x", .int 2), ("y", .bool true)]]⟩, host⟩) :=
    ⟨by simp, 3, rfl⟩
  obtain ⟨hiff, hmatches⟩ := ends_of_sameView hview host t
  obtain ⟨p, hright⟩ := hiff.1 ⟨_, hleft⟩
  refine ⟨hview, ?_⟩
  cases hmatches _ p hleft hright with
  | done _ h => exact ⟨_, _, hleft, hright, rfl, (h.1 "x").symm⟩

end Quill
