import Quill.Proofs.Actions
import Quill.Proofs.Formatting
import Quill.Proofs.Frames

/-!
What can be seen of an environment, and in which order. Reading a name and listing all
bindings go through the frames in different ways: the one stops at the first frame that
has the name, the other visits all bindings and passes over names that have come up.
They come to the same, whatever the frames hold, since both are searches in the one list
that the frames make when they are put one behind the other.

The order is a matter of history. An environment comes about by adding and dropping
frames, by declarations and by writes, and a program does nothing else to it. Keeping a
record of what has been declared in which frame along with it, one finds the names of a
frame in the order in which they come up in the record for the first time
(`Env.Reached.names_eq`).
-/

namespace Quill

open Eval

/-! ### Two ways through the frames -/

namespace Frame

theorem get?_append (f g : Frame) (x : String) :
    get? (f ++ g) x = (f.get? x).or (g.get? x) := by
  induction f with
  | nil => rfl
  | cons b rest ih =>
      obtain ⟨n, v⟩ := b
      by_cases hn : n = x
      · simp [get?, hn]
      · simp [get?, hn, ih]

end Frame

namespace Env

theorem read?_eq_get?_flatten (e : Env) (x : String) :
    e.read? x = Frame.get? e.frames.flatten x := by
  obtain ⟨fs⟩ := e
  induction fs with
  | nil => rfl
  | cons f fs ih => rw [read?_cons, ih, List.flatten_cons, Frame.get?_append]

theorem mem_distinct_iff (bs : List (String × Value)) (x : String) (v : Value) :
    (x, v) ∈ distinct bs ↔ Frame.get? bs x = some v := by
  induction bs with
  | nil => simp [distinct, Frame.get?]
  | cons b rest ih =>
      obtain ⟨n, u⟩ := b
      rw [distinct, List.mem_cons, List.mem_filter, ih]
      by_cases hn : n = x
      · subst hn
        simp [Frame.get?, eq_comm]
      · simp [Frame.get?, hn, Ne.symm hn]

theorem nodup_distinct (bs : List (String × Value)) : ((distinct bs).map Prod.fst).Nodup := by
  induction bs with
  | nil => exact List.nodup_nil
  | cons b rest ih =>
      rw [distinct, List.map_cons, List.nodup_cons]
      refine ⟨fun hmem => ?_, ih.sublist (List.filter_sublist.map Prod.fst)⟩
      obtain ⟨c, hc, hname⟩ := List.mem_map.1 hmem
      simpa [hname] using (List.mem_filter.1 hc).2

/-- It does not matter whether repetitions go first or what is filtered out. -/
theorem filter_eraseDups (p : String → Bool) (l : List String) :
    l.eraseDups.filter p = (l.filter p).eraseDups := by
  induction hn : l.length using Nat.strongRecOn generalizing l with
  | ind n ih =>
      subst hn
      cases l with
      | nil => rfl
      | cons a l =>
          have hlt : (l.filter fun b => !b == a).length < (a :: l).length :=
            Nat.lt_succ_of_le (List.length_filter_le _ _)
          have htail := ih _ hlt _ rfl
          rw [List.eraseDups_cons]
          by_cases ha : p a
          · rw [List.filter_cons_of_pos ha, List.filter_cons_of_pos ha, List.eraseDups_cons, htail,
              List.filter_comm]
          · rw [List.filter_cons_of_neg ha, List.filter_cons_of_neg ha, htail, List.filter_filter]
            congr 1
            refine List.filter_congr fun b _ => ?_
            by_cases hb : b = a
            · subst hb
              simp [ha]
            · simp [hb]

theorem names_distinct (bs : List (String × Value)) :
    (distinct bs).map Prod.fst = (bs.map Prod.fst).eraseDups := by
  induction bs with
  | nil => rfl
  | cons b rest ih =>
      rw [distinct, List.map_cons, List.map_cons, List.eraseDups_cons, ← filter_eraseDups, ← ih,
        List.filter_map]
      congr 2
      refine List.filter_congr fun c _ => ?_
      by_cases hc : c.1 = b.1 <;> simp [hc]

/-- The names that can be seen stand where the frames have them first. -/
theorem names_bindings (e : Env) :
    e.bindings.map Prod.fst = e.names.flatten.eraseDups := by
  have hframes : e.names = e.frames.map (List.map Prod.fst) := rfl
  rw [bindings, names_distinct, hframes, List.map_flatten]

end Env

/-! ### Records -/

namespace Env.Action

/-- What becomes of a record of declarations. It has a list for each frame, innermost
first, of the names declared in it, one after the other and with repetitions. -/
def record (a : Action) (log : List (List String)) : List (List String) :=
  match a with
  | push => [] :: log
  | pop => log.tail
  | declare name =>
      match log with
      | [] => [[name]]
      | ns :: log => (ns ++ [name]) :: log
  | write _ _ => log

def recordAll (as : List Action) (log : List (List String)) : List (List String) :=
  as.foldl (fun log a => a.record log) log

end Env.Action

namespace Env

theorem eraseDups_concat (ns : List String) (x : String) :
    (ns ++ [x]).eraseDups = if x ∈ ns.eraseDups then ns.eraseDups else ns.eraseDups ++ [x] := by
  rw [List.eraseDups_append]
  by_cases hx : x ∈ ns <;> simp [hx, List.removeAll, List.eraseDups_cons]

/-- Only a name that the frame does not have yet gets a new place, which is the last. -/
theorem names_apply {e : Env} {log : List (List String)} (h : e.names = log.map List.eraseDups)
    (a : Action) : (a.apply e).names = (a.record log).map List.eraseDups := by
  obtain ⟨fs⟩ := e
  cases a with
  | push => exact congrArg ([] :: ·) h
  | pop =>
      simp only [names, Action.apply, Action.record, pop, List.map_tail] at h ⊢
      rw [h]
  | declare x =>
      cases fs with
      | nil =>
          obtain rfl : log = [] := List.map_eq_nil_iff.1 h.symm
          rfl
      | cons f fs =>
          cases log with
          | nil => cases h
          | cons ns log =>
              obtain ⟨hf, hfs⟩ := List.cons.inj h
              have hput : (f.put x .nil).names = (ns ++ [x]).eraseDups := by
                rw [Frame.names_put, hf, eraseDups_concat]
              exact congrArg₂ List.cons hput hfs
  | write x v =>
      cases hwrite : write? ⟨fs⟩ x v with
      | none => simpa [Action.apply, Action.record, hwrite] using h
      | some e' => simpa [Action.apply, Action.record, hwrite, names_of_write? hwrite] using h

theorem names_applyAll {e : Env} {log : List (List String)}
    (h : e.names = log.map List.eraseDups) (as : List Action) :
    (Action.applyAll as e).names = (Action.recordAll as log).map List.eraseDups := by
  induction as generalizing e log with
  | nil => exact h
  | cons a as ih => exact ih (names_apply h a)

end Env

/-! ### Environments with a history -/

namespace Env

/-- An environment that has come about from the one in which a program starts, and the
record of what has been declared in its frames on the way. Programs may have been run in
it with any host, and may have failed. -/
inductive Reached : List (List String) → Env → Prop
  | initial : Reached [[]] .initial
  | action {log : List (List String)} {e : Env} (h : Reached log e) (a : Action) :
      Reached (a.record log) (a.apply e)
  | run {log : List (List String)} {e : Env} (h : Reached log e) {H : Type} [HostLike H]
      {host : H} {n : Nat} {source : String} {as : List Eval.Action} {v : World H}
      (hperforms : Performs (run n source) ⟨e, host⟩ as)
      (hrun : (Quill.run n source ⟨e, host⟩).world? = some v) :
      Reached (Action.recordAll (Eval.Action.onEnv as) log) v.env

/-- A frame has its names in the order in which they were declared there first. -/
theorem Reached.names_eq {log : List (List String)} {e : Env} (h : Reached log e) :
    e.names = log.map List.eraseDups := by
  induction h with
  | initial => rfl
  | action _ a ih => exact names_apply ih a
  | run _ hperforms hrun ih =>
      rw [hperforms.world_eq hrun, Eval.Action.env_applyAll]
      exact names_applyAll ih _

/-- Wherever a program is run, there is a record of what it has declared. -/
theorem Reached.exists_run {log : List (List String)} {e : Env} (h : Reached log e) {H : Type}
    [HostLike H] {n : Nat} {source : String} {host : H} {v : World H}
    (hrun : (Quill.run n source ⟨e, host⟩).world? = some v) : ∃ log', Reached log' v.env := by
  have hbuilt : Built (H := H) (Quill.run n source) := built_interpret (built_eval n) source
  obtain ⟨as, has⟩ := hbuilt.exists_performs hrun
  exact ⟨_, h.run has hrun⟩

/-- Listing and reading agree. In an environment that has come about by adding and
dropping frames, by declarations, by writes and by running programs, the list of bindings
has every name that can be seen, with the value that it reads as, and has it once. The
names are in the order of the frames, from the innermost outward, within a frame in the
order of their first declarations in it, and stand where they come up first. And this is
so again after any further program. -/
theorem bindings_of_reached {log : List (List String)} {e : Env} (h : Reached log e) :
    (e.bindings.map Prod.fst).Nodup ∧
    (∀ x v, (x, v) ∈ e.bindings ↔ e.read? x = some v) ∧
    e.bindings.map Prod.fst = (log.map List.eraseDups).flatten.eraseDups ∧
    ∀ (H : Type) [HostLike H] n source (host : H) v,
      (Quill.run n source ⟨e, host⟩).world? = some v → ∃ log', Reached log' v.env := by
  refine ⟨nodup_distinct _, fun x v => ?_, ?_, fun H _ n source host v => h.exists_run⟩
  · rw [bindings, mem_distinct_iff, read?_eq_get?_flatten]
  · rw [names_bindings, h.names_eq]

/-- One name is declared twice in the outer frame, another one in both frames, and a third
one by a program that is run in the inner frame. -/
theorem bindings_of_reached_shadowed :
    let e : Env := ⟨[[("a", .int 1), ("c", .int 1)], [("b", .nil), ("a", .nil)]]⟩
    Reached [["a", "c"], ["b", "a", "b"]] e ∧
      e.bindings.map Prod.fst = ["a", "c", "b"] ∧ ("a", .int 1) ∈ e.bindings ∧
      ("a", .nil) ∉ e.bindings := by
  intro e
  let a : Token := ⟨.ident, 1, some (.str "a")⟩
  let c : Token := ⟨.ident, 1, some (.str "c")⟩
  have htree : Tree.ofText "let c=a;" = .ok (.define c (.leaf a)) := by
    have hlex : lex "let c=a;" = .ok [⟨.kwLet, 1, none⟩, c, ⟨.assign, 1, none⟩, a,
        ⟨.semi, 1, none⟩, ⟨.eof, 1, none⟩] := by decide +kernel
    exact Tree.ofText_eq_ok_iff.2 ⟨_, hlex, rfl⟩
  have hrun : Quill.run (H := Host) 2 "let c=a;" = eval 2 (.define c (.leaf a)) :=
    run_of_ofText htree 2
  let w : World :=
    ⟨⟨[[("a", .int 1)], [("b", .nil), ("a", .nil)]]⟩, .ofFiles fun _ => none⟩
  let w' : World := { w with env := w.env.declare "c" }
  have hread : Performs (eval 1 (.leaf a)) w' [] :=
    .andThen (.pure "a" w') rfl (.read "a" w')
  have hperforms : Performs (Quill.run 2 "let c=a;") w
      [.env (.declare "c"), .env (.write "c" (.int 1))] := by
    rw [hrun]
    exact .andThen (.pure "c" w) rfl (.andThen (.declare "c" w) rfl
      (.andThen hread rfl (.andThen (.write "c" (.int 1) w') rfl (.pure Value.nil _))))
  have hstart : Reached [["a"], ["b", "a", "b"]] w.env :=
    ((((((Reached.initial.action (.declare "b")).action (.declare "a")).action
      (.declare "b")).action .push).action (.declare "a")).action (.write "a" (.int 1)))
  have hreached : Reached [["a", "c"], ["b", "a", "b"]] e :=
    hstart.run (v := ⟨e, w.host⟩) hperforms (by rw [hrun]; rfl)
  obtain ⟨-, hmem, hnames, -⟩ := bindings_of_reached hreached
  exact ⟨hreached, hnames, (hmem "a" _).2 rfl, fun h => by cases (hmem "a" _).1 h⟩

end Env

end Quill
