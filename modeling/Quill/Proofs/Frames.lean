import Mathlib.Control.Monad.Basic
import Quill.Proofs.Effects

/-!
Frames keep their names. Whatever is evaluated, and whether it fails or not, the
stack has as many frames afterwards as before, and every frame has the names it
had in the order it had them. Only the innermost frame may have got more names,
behind the old ones, and a block takes even those away again: what its statements
declare goes into the frame that is dropped at its end.

An environment without any frame is the one exception to the count. Declaring a
name there makes a frame, after which there is one for good.
-/

namespace Quill

namespace Frame

theorem mem_names_of_get? {f : Frame} {x : String} {v : Value} (h : f.get? x = some v) :
    x ∈ f.names := by
  induction f with
  | nil => cases h
  | cons b rest ih =>
      obtain ⟨n, u⟩ := b
      by_cases hn : n = x
      · simp [names, hn]
      · rw [get?, if_neg hn] at h
        exact List.mem_cons_of_mem n (ih h)

/-- A new name goes behind the others and an old one stays where it is. -/
theorem names_put (f : Frame) (x : String) (v : Value) :
    (f.put x v).names = if x ∈ f.names then f.names else f.names ++ [x] := by
  induction f with
  | nil => rfl
  | cons b rest ih =>
      obtain ⟨n, u⟩ := b
      by_cases hn : n = x
      · simp [put, names, hn]
      · have hx : x ∈ names ((n, u) :: rest) ↔ x ∈ names rest := by
          simp [names, Ne.symm hn]
        rw [put, if_neg hn]
        change n :: (put rest x v).names = _
        rw [ih]
        simp only [hx]
        split <;> rfl

theorem prefix_names_put (f : Frame) (x : String) (v : Value) :
    f.names <+: (f.put x v).names := by
  rw [names_put]
  split
  · exact List.prefix_refl _
  · exact List.prefix_append _ _

end Frame

namespace Env

/-- The names of each frame, innermost first. -/
def names (e : Env) : List (List String) := e.frames.map Frame.names

theorem names_of_writeFrames {x : String} {v : Value} {fs fs' : List Frame}
    (h : writeFrames x v fs = some fs') : fs'.map Frame.names = fs.map Frame.names := by
  induction fs generalizing fs' with
  | nil => cases h
  | cons f fs ih =>
      unfold writeFrames at h
      split at h
      · next hget =>
          cases h
          have hput := Frame.names_put f x v
          rw [if_pos (Frame.mem_names_of_get? hget)] at hput
          rw [List.map_cons, List.map_cons, hput]
      · obtain ⟨gs, hgs, rfl⟩ := Option.map_eq_some_iff.1 h
        rw [List.map_cons, List.map_cons, ih hgs]

/-- A write leaves all names as they are. -/
theorem names_of_write? {e e' : Env} {x : String} {v : Value} (h : e.write? x v = some e') :
    e'.names = e.names := by
  obtain ⟨fs, hfs, rfl⟩ := Option.map_eq_some_iff.1 h
  exact names_of_writeFrames hfs

/-- The second environment has the frames of the first, and more names in the
innermost of them at most. -/
inductive Grown : Env → Env → Prop
  | none : Grown ⟨[]⟩ ⟨[]⟩
  | first (f : Frame) : Grown ⟨[]⟩ ⟨[f]⟩
  | frames {f f' : Frame} {fs fs' : List Frame} (hf : f.names <+: f'.names)
      (hfs : fs'.map Frame.names = fs.map Frame.names) : Grown ⟨f :: fs⟩ ⟨f' :: fs'⟩

theorem grown_of_names {e e' : Env} (h : e'.names = e.names) : Grown e e' := by
  obtain ⟨fs⟩ := e
  obtain ⟨fs'⟩ := e'
  cases fs with
  | nil =>
      cases fs' with
      | nil => exact .none
      | cons f' fs' => cases h
  | cons f fs =>
      cases fs' with
      | nil => cases h
      | cons f' fs' =>
          obtain ⟨hf, hfs⟩ := List.cons.inj h
          exact .frames (hf ▸ List.prefix_refl _) hfs

theorem Grown.trans {e e' e'' : Env} (h : Grown e e') (h' : Grown e' e'') : Grown e e'' := by
  cases h with
  | none => exact h'
  | first f =>
      cases h' with
      | @frames _ f' _ fs' _ hfs =>
          obtain rfl : fs' = [] := List.map_eq_nil_iff.1 hfs
          exact .first f'
  | frames hf hfs =>
      cases h' with
      | frames hf' hfs' => exact .frames (hf.trans hf') (hfs'.trans hfs)

theorem grown_declare (e : Env) (x : String) : Grown e (e.declare x) := by
  obtain ⟨fs⟩ := e
  cases fs with
  | nil => exact .first _
  | cons f fs => exact .frames (Frame.prefix_names_put f x .nil) rfl

/-- Growth above an added frame is lost with it. -/
theorem Grown.names_pop {e e' : Env} (h : Grown e.push e') : e'.pop.names = e.names := by
  obtain ⟨fs⟩ := e
  cases h with
  | frames _ hfs => exact hfs

theorem Grown.exists_cons {e e' : Env} (h : Grown e e') {f : Frame} {fs : List Frame}
    (he : e.frames = f :: fs) :
    ∃ f' fs', e'.frames = f' :: fs' ∧ f.names <+: f'.names ∧
      fs'.map Frame.names = fs.map Frame.names := by
  cases h with
  | none => cases he
  | first _ => cases he
  | frames hf hfs =>
      cases he
      exact ⟨_, _, rfl, hf, hfs⟩

theorem Grown.depth_le_one {e e' : Env} (h : Grown e e') (he : e.frames = []) :
    e'.depth ≤ 1 := by
  cases h with
  | none => exact Nat.zero_le 1
  | first f => exact Nat.le_refl 1
  | frames _ _ => cases he

theorem Grown.depth_eq {e e' : Env} (h : Grown e e') (he : e.frames ≠ []) :
    e'.depth = e.depth := by
  cases h with
  | none => exact absurd rfl he
  | first f => exact absurd rfl he
  | frames _ hfs => simpa [depth] using congrArg List.length hfs

end Env

open Eval

variable {H : Type} [HostLike H]

theorem respected_grown : Respected fun w w' : World H => Env.Grown w.env w'.env where
  refl _ := Env.grown_of_names rfl
  trans := Env.Grown.trans
  declare w name := Env.grown_declare w.env name
  write h := Env.grown_of_names (Env.names_of_write? h)
  print _ _ := Env.grown_of_names rfl
  load _ _ := Env.grown_of_names rfl
  frame h := Env.grown_of_names h.names_pop

theorem grown_of_eval {n : Nat} {t : Tree} {w w' : World H} (h : (eval n t w).world? = some w') :
    Env.Grown w.env w'.env :=
  respected_grown.of_built (built_eval n t) h

/-- Nothing that the statements of a block declare outlives it. -/
theorem names_of_eval_scope {n : Nat} {body : List Tree} {w w' : World H}
    (h : (eval n (.scope body) w).world? = some w') : w'.env.names = w.env.names := by
  cases n with
  | zero => cases h
  | succ n =>
      have hframe : (inFrame (Eval.sequence (eval n) body) w).world? = some w' := by
        rcases world?_bind h with hx | ⟨a, v, hx, hv⟩
        · exact hx
        · rw [hx]
          exact hv
      obtain ⟨v, hv, rfl⟩ := world?_inFrame hframe
      exact (respected_grown.of_built (built_sequence (built_eval n) body) hv).names_pop

/-- However an evaluation ends, and whatever the host, there are as many frames as
before and all of them have their old names in the old order. The innermost frame
alone may have got names, which stand behind the old ones, and not if the tree is a
scope. Without any frame at the start there is one at the end at most. -/
theorem eval_keeps_frames {n : Nat} {t : Tree} {w w' : World H}
    (h : (eval n t w).world? = some w') :
    (∀ f fs, w.env.frames = f :: fs →
      w'.env.depth = w.env.depth ∧
      (∃ f' fs', w'.env.frames = f' :: fs' ∧ f.names <+: f'.names ∧
        fs'.map Frame.names = fs.map Frame.names) ∧
      (∀ body, t = .scope body → w'.env.names = w.env.names)) ∧
    (w.env.frames = [] → w'.env.depth ≤ 1) := by
  have hgrown := grown_of_eval h
  refine ⟨?_, hgrown.depth_le_one⟩
  intro f fs hframes
  obtain ⟨f', fs', hframes', hf, hfs⟩ := hgrown.exists_cons hframes
  have hlength : fs'.length = fs.length := by
    simpa using congrArg List.length hfs
  refine ⟨?_, ⟨f', fs', hframes', hf, hfs⟩, ?_⟩
  · rw [Env.depth, Env.depth, hframes, hframes', List.length_cons, List.length_cons, hlength]
  · rintro body rfl
    exact names_of_eval_scope h

/-- An executed text declares a name next to the old ones and then fails. -/
theorem eval_keeps_frames_exec :
    let w : World :=
      ⟨⟨[[("a", .int 1), ("b", .nil)], [("c", .bool true)]]⟩, .ofFiles fun _ => none⟩
    let t : Tree := .exec (.leaf ⟨.string, 1, some (.str "let c = d;")⟩)
    ∃ w', eval 4 t w = .fault (.nameNotFound "d") w' ∧ w'.env.depth = 2 ∧
      w'.env.names = [["a", "b", "c"], ["c"]] := by
  intro w t
  have hlex : lex "let c = d;" = .ok [⟨.kwLet, 1, none⟩, ⟨.ident, 1, some (.str "c")⟩,
      ⟨.assign, 1, none⟩, ⟨.ident, 1, some (.str "d")⟩, ⟨.semi, 1, none⟩, ⟨.eof, 1, none⟩] := by
    decide +kernel
  have htree : Tree.ofText "let c = d;" = .ok (.define ⟨.ident, 1, some (.str "c")⟩
      (.leaf ⟨.ident, 1, some (.str "d")⟩)) := by
    rw [Tree.ofText, hlex]
    rfl
  have heval : eval 4 t w = .fault (.nameNotFound "d")
      { w with env := ⟨[[("a", .int 1), ("b", .nil), ("c", .nil)], [("c", .bool true)]]⟩ } := by
    change interpret (eval 3) "let c = d;" w = _
    rw [interpret, htree]
    rfl
  have hkeeps := eval_keeps_frames (t := t) (w := w) (by rw [heval]; rfl)
  exact ⟨_, heval, (hkeeps.1 _ _ rfl).1, rfl⟩

end Quill
