import Quill.Proofs.Actions
import Quill.Proofs.Frames

/-!
Printed lines. Evaluation does one thing to a host in memory, which is to print, so
lines once printed stay and every further one goes behind them; the files are never
touched.

An output that stops taking lines therefore cuts a run at the first line that is
too many and nowhere else. Up to there the run is the one with the output that
takes all lines, step for step. From there on nothing is evaluated any more: the
fault leaves every block on its way out, and so does every later statement of the
other run, which can only print behind the lines that both runs have in common.
`cut_of_built` says this of all computations at once. How the run with the
unlimited output ends does not matter to it, nor whether it ends at all.

Two outputs that take all lines and differ in those they hold from before are not told
apart by any operation, and each puts the same line behind both (`lockstep_behind`). In
the end these are the lines that have been printed on the way, all of them and no others,
and a fault takes none of them back (`Tree.Ends.prints_iff`).
-/

namespace Quill

/-! ### Hosts -/

namespace Host

/-- The second host is what printing has made of the first. -/
structure Printed (h h' : Host) : Prop where
  files : h'.files = h.files
  cutoff : h'.cutoff = h.cutoff
  output : h.output.toList <+: h'.output.toList

theorem Printed.refl (h : Host) : Printed h h := ⟨rfl, rfl, List.prefix_rfl⟩

theorem Printed.trans {h h' h'' : Host} (hp : Printed h h') (hp' : Printed h' h'') :
    Printed h h'' where
  files := hp'.files.trans hp.files
  cutoff := hp'.cutoff.trans hp.cutoff
  output := hp.output.trans hp'.output

theorem printed_print (h : Host) (text : String) : Printed h (HostLike.print h text).2 := by
  rcases h.print_eq_record_or_eq text with heq | heq
  · rw [heq]
    exact ⟨rfl, rfl, by simp [record]⟩
  · rw [heq]
    exact .refl h

/-- The host with an output that stops taking lines. -/
def limited (h : Host) (c : Cutoff) : Host := { h with cutoff := some c }

/-- The host as it was when it had printed this many lines and no more. -/
def cut (h : Host) (n : Nat) : Host := { h with output := h.output.take n }

theorem Printed.cut_eq {h h' : Host} (hp : Printed h h') {n : Nat} (hn : n ≤ h.output.size) :
    h'.cut n = h.cut n := by
  obtain ⟨lines, hlines⟩ := hp.output
  have htake : h'.output.take n = h.output.take n := by
    apply Array.toList_inj.1
    have hn' : n ≤ h.output.toList.length := by simpa using hn
    simp [← hlines, List.take_append_of_le_length hn']
  unfold cut
  rw [htake, hp.files, hp.cutoff]

theorem Printed.size_le {h h' : Host} (hp : Printed h h') : h.output.size ≤ h'.output.size := by
  simpa using hp.output.length_le

end Host

theorem respected_printed : Respected fun w w' => Host.Printed w.host w'.host where
  refl w := .refl w.host
  trans := .trans
  declare w _ := .refl w.host
  write _ := .refl _
  print w text := Host.printed_print w.host text
  load w _ := .refl w.host
  frame h := h

/-! ### Two runs, one of which is cut -/

/-- The world with an output that stops taking lines. -/
def World.limited (w : World) (c : Cutoff) : World := { w with host := w.host.limited c }

/-- What becomes of an outcome when the output is limited. Either the limit has not
been felt and the outcome is the same, or it has, and then the outcome is the fault
of the line that was refused; the first outcome, if it is one, has more lines than
are allowed, and the second exactly the first of these. -/
inductive Outcome.Cut {α : Type} (c : Cutoff) : Outcome α → Outcome α → Prop
  | done (a : α) {w : World} (hw : w.host.output.size ≤ c.lines) :
      Cut c (.done a w) (.done a (w.limited c))
  | fault (f : Fault) {w : World} (hw : w.host.output.size ≤ c.lines) :
      Cut c (.fault f w) (.fault f (w.limited c))
  | exhausted : Cut c .exhausted .exhausted
  | refused {o : Outcome α} (line : Nat) {v : World}
      (ho : ∀ w, o.world? = some w →
        c.lines < w.host.output.size ∧ v.host = (w.host.cut c.lines).limited c) :
      Cut c o (.fault (.output c.reason line) v)

namespace Eval

variable {α β : Type} {c : Cutoff} {w : World}

/-- Printing is the one action that feels the limit, and it does so when as many
lines as are allowed have been printed. -/
theorem cut_print (text : String) (line : Nat) (hw : w.host.cutoff = none)
    (hsize : w.host.output.size ≤ c.lines) :
    Outcome.Cut c (print text line w) (print text line (w.limited c)) := by
  have hfree := Host.print_of_cutoff hw text
  rcases Nat.lt_or_eq_of_le hsize with hlt | heq
  · have htaken : (w.limited c).host.print text = .ok ((w.host.record text).limited c) := by
      simp [Host.print, World.limited, Host.limited, Host.record, Nat.not_le.2 hlt]
    have hroom : (w.host.record text).output.size ≤ c.lines := by
      simp only [Host.record, Array.size_push]
      omega
    rw [print_of_ok hfree, print_of_ok htaken]
    exact .done () (w := { w with host := w.host.record text }) hroom
  · have hrefused : (w.limited c).host.print text = .error c.reason := by
      simp [Host.print, World.limited, Host.limited, heq]
    rw [print_of_ok hfree, print_of_error hrefused]
    refine .refused line fun v hv => ?_
    cases hv
    refine ⟨by simp [Host.record, heq], ?_⟩
    simp [World.limited, Host.limited, Host.cut, Host.record, ← heq]

theorem cut_bind {x : Eval Host α} {f : α → Eval Host β} (hf : ∀ a, Built (f a))
    (hx : Outcome.Cut c (x w) (x (w.limited c)))
    (hcut : ∀ a v, x w = .done a v → v.host.output.size ≤ c.lines →
      Outcome.Cut c (f a v) (f a (v.limited c))) :
    Outcome.Cut c ((x >>= f) w) ((x >>= f) (w.limited c)) := by
  simp only [Bind.bind]
  generalize hp : x (w.limited c) = p at hx
  cases ho : x w with
  | done a v =>
      rw [ho] at hx
      cases hx with
      | done _ hv => exact hcut a v ho hv
      | refused line h =>
          -- what `f` still prints in the first run goes behind the lines that count
          refine .refused line fun u hu => ?_
          obtain ⟨hlt, hhost⟩ := h v rfl
          have hprinted := respected_printed.of_built (hf a) hu
          have hcut := hprinted.cut_eq (Nat.le_of_lt hlt)
          exact ⟨Nat.lt_of_lt_of_le hlt hprinted.size_le, by rw [hhost, hcut]⟩
  | fault e v =>
      rw [ho] at hx
      cases hx with
      | fault _ hv => exact .fault e hv
      | refused line h => exact .refused line h
  | exhausted =>
      rw [ho] at hx
      cases hx with
      | exhausted => exact .exhausted
      | refused line h => exact .refused line fun u hu => by cases hu

theorem cut_inFrame {x : Eval Host Unit}
    (hx : Outcome.Cut c (x { w with env := w.env.push })
      (x { w.limited c with env := w.env.push })) :
    Outcome.Cut c (inFrame x w) (inFrame x (w.limited c)) := by
  have hpush : (w.limited c).env.push = w.env.push := rfl
  simp only [inFrame, hpush]
  generalize x { w with env := w.env.push } = o at hx ⊢
  generalize x { w.limited c with env := w.env.push } = p at hx ⊢
  cases hx with
  | done _ hv => exact .done () hv
  | fault f hv => exact .fault f hv
  | exhausted => exact .exhausted
  | refused line h =>
      refine .refused line fun u hu => ?_
      cases o with
      | done _ v =>
          cases hu
          exact h v rfl
      | fault _ v =>
          cases hu
          exact h v rfl
      | exhausted => cases hu

end Eval

open Eval

/-- A limit that is not yet exceeded cuts a computation at the first line that
exceeds it, or does not show. -/
theorem cut_of_built {α : Type} {x : Eval Host α} (hx : Built x) {c : Cutoff} {w : World}
    (hw : w.host.cutoff = none) (hsize : w.host.output.size ≤ c.lines) :
    Outcome.Cut c (x w) (x (w.limited c)) := by
  induction hx generalizing w with
  | pure a => exact .done a hsize
  | fail f => exact .fault f hsize
  | outOfFuel => exact .exhausted
  | bind hx hf ihx ihf =>
      refine cut_bind hf (ihx hw hsize) fun a v hv hsize' => ihf a ?_ hsize'
      have hprinted : w.host.Printed v.host := respected_printed.of_built hx (by rw [hv]; rfl)
      rw [hprinted.cutoff, hw]
  | declare name => exact .done () hsize
  | read name =>
      simp only [Eval.read, World.limited]
      split
      · exact .done _ hsize
      · exact .fault _ hsize
  | write name value =>
      simp only [Eval.write, World.limited]
      split
      · exact .done () hsize
      · exact .fault _ hsize
  | inFrame _ ih => exact cut_inFrame (ih hw hsize)
  | print text line => exact cut_print text line hw hsize
  | loadFile path =>
      cases hfile : w.host.files path with
      | some source =>
          have hlimited : (w.limited c).host.files path = some source := hfile
          rw [loadFile_of_some hfile, loadFile_of_some hlimited]
          exact .done source hsize
      | none =>
          have hlimited : (w.limited c).host.files path = none := hfile
          rw [loadFile_of_none hfile, loadFile_of_none hlimited]
          exact .fault _ hsize

/-! ### How the cut run ends -/

namespace Outcome.Cut

variable {α : Type} {c : Cutoff} {o p : Outcome α} {w : World}

theorem matches_of_le (h : Cut c o p) (hw : o.world? = some w)
    (hle : w.host.output.size ≤ c.lines) : Matches (fun u v => v = u.limited c) o p := by
  cases h with
  | done a _ => exact .done a rfl
  | fault f _ => exact .fault f rfl
  | exhausted => exact .exhausted
  | refused line ho => exact absurd (ho w hw).1 (Nat.not_lt.2 hle)

theorem refused_of_lt (h : Cut c o p) (hw : o.world? = some w)
    (hlt : c.lines < w.host.output.size) :
    ∃ line v, p = .fault (.output c.reason line) v ∧
      v.host = (w.host.cut c.lines).limited c := by
  cases h with
  | done a hle =>
      cases hw
      exact absurd hlt (Nat.not_lt.2 hle)
  | fault f hle =>
      cases hw
      exact absurd hlt (Nat.not_lt.2 hle)
  | exhausted => cases hw
  | refused line ho => exact ⟨line, _, rfl, (ho w hw).2⟩

end Outcome.Cut

/-- An output that stops taking lines cuts a run at that line and nowhere else. If
the run on an output that takes all lines ends with no more than are allowed, then
it ends in the same way with the limit. If it ends with more, then with the limit it
ends in the fault of the refused line, has printed the lines that are allowed, and
has left all blocks. -/
theorem ends_of_cutoff {e : Env} {files : String → Option String} {output : Array String}
    {t : Tree} {o : Outcome Value} {w : World} (h : t.Ends ⟨e, ⟨files, output, none⟩⟩ o)
    (hw : o.world? = some w) {c : Cutoff} (hc : output.size ≤ c.lines) :
    (w.host.output.size ≤ c.lines →
      ∃ p : Outcome Value, t.Ends ⟨e, ⟨files, output, some c⟩⟩ p ∧
        Outcome.Matches (fun u v => v = u.limited c) o p) ∧
    (c.lines < w.host.output.size →
      ∃ line, ∃ v : World, t.Ends ⟨e, ⟨files, output, some c⟩⟩ (.fault (.output c.reason line) v) ∧
        v.host = ⟨files, w.host.output.take c.lines, some c⟩ ∧
        (e.frames ≠ [] → v.env.depth = e.depth)) := by
  obtain ⟨-, n, rfl⟩ := h
  let start : World := ⟨e, ⟨files, output, none⟩⟩
  have hcut : Outcome.Cut c (eval n t start) (eval n t (start.limited c)) :=
    cut_of_built (built_eval n t) rfl hc
  refine ⟨fun hle => ?_, fun hlt => ?_⟩
  · have hmatches := hcut.matches_of_le hw hle
    refine ⟨_, ⟨fun hp => ?_, n, rfl⟩, hmatches⟩
    -- the run with the limit has not run out of fuel either
    change eval n t (start.limited c) = .exhausted at hp
    rw [hp] at hmatches
    generalize eval n t start = o at hmatches hw
    cases hmatches
    cases hw
  · obtain ⟨line, v, hv, hhost⟩ := hcut.refused_of_lt hw hlt
    have hprinted := respected_printed.of_built (built_eval n t) hw
    have hgrown : Env.Grown e v.env := grown_of_eval (by rw [hv]; rfl)
    refine ⟨line, v, ⟨by simp, n, hv⟩, ?_, hgrown.depth_eq⟩
    rw [hhost, Host.limited, Host.cut, hprinted.files]

/-- An executed text prints twice and then fails, after one line that was there
before. An output of two lines cuts it at its second line, and one of three does
not show. -/
theorem ends_of_cutoff_exec :
    let e : Env := ⟨[[("a", .int 1)]]⟩
    let host : Host := ⟨fun _ => none, #["0"], none⟩
    let t : Tree := .exec (.leaf ⟨.string, 1, some (.str "print 1;print a;b;")⟩)
    t.Ends ⟨e, host⟩ (.fault (.nameNotFound "b") ⟨e, { host with output := #["0", "1", "1"] }⟩) ∧
    (∃ line v, t.Ends ⟨e, host.limited ⟨2, "closed"⟩⟩ (.fault (.output "closed" line) v) ∧
      v.host.output = #["0", "1"] ∧ v.env.depth = 1) ∧
    ∃ v, t.Ends ⟨e, host.limited ⟨3, "closed"⟩⟩ (.fault (.nameNotFound "b") v) ∧
      v.env = e ∧ v.host.output = #["0", "1", "1"] := by
  intro e host t
  let a : Token := ⟨.ident, 1, some (.str "a")⟩
  let b : Token := ⟨.ident, 1, some (.str "b")⟩
  let one : Token := ⟨.int, 1, some (.int 1)⟩
  have hlex : lex "print 1;print a;b;" = .ok [⟨.kwPrint, 1, none⟩, one, ⟨.semi, 1, none⟩,
      ⟨.kwPrint, 1, none⟩, a, ⟨.semi, 1, none⟩, b, ⟨.semi, 1, none⟩, ⟨.eof, 1, none⟩] := by
    decide +kernel
  have htree : Tree.ofText "print 1;print a;b;" =
      .ok (.scope [.print (.leaf one), .print (.leaf a), .leaf b]) := by
    rw [Tree.ofText, hlex]
    rfl
  let w : World := ⟨e, { host with output := #["0", "1", "1"] }⟩
  have heval : eval 6 t ⟨e, host⟩ = .fault (.nameNotFound "b") w := by
    change interpret (eval 5) "print 1;print a;b;" ⟨e, host⟩ = _
    rw [interpret, htree]
    rfl
  have hends : t.Ends ⟨e, host⟩ (.fault (.nameNotFound "b") w) := ⟨by simp, 6, heval⟩
  have hcut := ends_of_cutoff hends rfl (c := ⟨2, "closed"⟩) (by decide)
  have hsame := ends_of_cutoff hends rfl (c := ⟨3, "closed"⟩) (by decide)
  obtain ⟨line, v, hv, hhost, hdepth⟩ := hcut.2 (by decide)
  obtain ⟨p, hp, hmatches⟩ := hsame.1 (by decide)
  refine ⟨hends, ⟨line, v, hv, by rw [hhost]; rfl, hdepth (by simp [e])⟩, ?_⟩
  cases hmatches with
  | fault _ h =>
      subst h
      exact ⟨_, hp, rfl, rfl⟩

/-! ### Lines that are printed -/

/-- The evaluation of a tree comes to an end, and until then it prints these lines, in turn.
What the host makes of them does not come into it: they are what the statements print
that are carried out. -/
def Tree.Prints {H : Type} [HostLike H] (t : Tree) (w : World H) (lines : List String) : Prop :=
  ∃ n as, eval n t w ≠ .exhausted ∧ Performs (eval n t) w as ∧ Action.lines as = lines

/-- An output that takes all lines has those that are printed behind the ones from before,
and has no others, however the evaluation ends. -/
theorem Tree.Ends.prints_iff {t : Tree} {w v : World} {o : Outcome Value} (h : t.Ends w o)
    (hv : o.world? = some v) (hw : w.host.cutoff = none) {lines : List String}
    (hlines : v.host.output = w.host.output ++ lines) (ls : List String) :
    t.Prints w ls ↔ ls = lines := by
  have hperformed {n : Nat} {as : List Action} (hn : eval n t w = o)
      (hperforms : Performs (eval n t) w as) : Action.lines as = lines := by
    have hworld := hperforms.world_eq (by rw [hn, hv])
    rw [hworld, Action.output_applyAll as hw] at hlines
    simpa using congrArg Array.toList hlines
  constructor
  · rintro ⟨n, as, hne, hperforms, rfl⟩
    exact hperformed (Tree.Ends.unique ⟨hne, n, rfl⟩ h) hperforms
  · rintro rfl
    obtain ⟨hne, n, hn⟩ := h
    obtain ⟨as, has⟩ := (built_eval n t).exists_performs (w := w) (by rw [hn, hv])
    exact ⟨n, as, by rwa [hn], has, hperformed hn has⟩

/-! ### Lines from before

What has been printed cannot be read, so it makes no difference to a run. Two runs that
begin with other lines in the output print the same lines behind them. -/

/-- The same variables and files in both worlds, and the same lines in the outputs behind
those that were there before. -/
inductive World.Behind (files : String → Option String) (before before' : Array String) :
    World → World → Prop
  | printed (e : Env) (lines : List String) :
      Behind files before before' ⟨e, ⟨files, before ++ lines, none⟩⟩
        ⟨e, ⟨files, before' ++ lines, none⟩⟩

theorem lockstep_behind (files : String → Option String) (before before' : Array String) :
    Lockstep fun _ => World.Behind files before before' where
  push h := by
    cases h with
    | printed e lines => exact .printed e.push lines
  pop h := by
    cases h with
    | printed e lines => exact .printed e.pop lines
  declare h name := by
    cases h with
    | printed e lines => exact .done () (.printed (e.declare name) lines)
  read h name := by
    cases h with
    | printed e lines =>
        simp only [Eval.read]
        cases e.read? name with
        | some a => exact .done a (.printed e lines)
        | none => exact .fault _ (.printed e lines)
  write h name value := by
    cases h with
    | printed e lines =>
        simp only [Eval.write]
        cases e.write? name value with
        | some d => exact .done () (.printed d lines)
        | none => exact .fault _ (.printed e lines)
  print h text line := by
    cases h with
    | printed e lines =>
        have hpush (output : Array String) : (output ++ lines).push text =
            output ++ (lines ++ [text]) := Array.toList_inj.1 (by simp)
        rw [print_of_ok rfl, print_of_ok rfl, hpush before, hpush before']
        exact .done () (.printed e (lines ++ [text]))
  loadFile h path := by
    cases h with
    | printed e lines =>
        cases hfile : files path with
        | some source =>
            rw [loadFile_of_some hfile, loadFile_of_some hfile]
            exact .done source (.printed e lines)
        | none =>
            rw [loadFile_of_none hfile, loadFile_of_none hfile]
            exact .fault _ (.printed e lines)

/-- Output is only ever added to and has no influence. Whatever two outputs hold at the
start, with the same variables and files a tree is evaluated to an end with both or with
neither, and to the same value or the same fault with the same variables. There is one list
of lines that both runs print, and no other, also where they fail; at the end both outputs
have it behind what was there, and the files are as they were. -/
theorem ends_of_printed_before (e : Env) (files : String → Option String)
    (before before' : Array String) (t : Tree) :
    let start (output : Array String) : World := ⟨e, ⟨files, output, none⟩⟩
    ((∃ o, t.Ends (start before) o) ↔ ∃ p, t.Ends (start before') p) ∧
    ∀ o p, t.Ends (start before) o → t.Ends (start before') p →
      ∃ lines, (∀ ls, t.Prints (start before) ls ↔ ls = lines) ∧
        (∀ ls, t.Prints (start before') ls ↔ ls = lines) ∧
        Outcome.Matches (fun w v => w.env = v.env ∧ w.host = ⟨files, before ++ lines, none⟩ ∧
          v.host = ⟨files, before' ++ lines, none⟩) o p := by
  intro start
  have hstart : World.Behind files before before' (start before) (start before') := by
    have hnone : World.Behind files before before' ⟨e, ⟨files, before ++ [], none⟩⟩
        ⟨e, ⟨files, before' ++ [], none⟩⟩ := .printed e []
    simpa using hnone
  obtain ⟨hiff, hmatches⟩ := Tree.ends_of_matches fun n =>
    (lockstep_behind files before before').of_built (built_eval n t) hstart (k := 0)
  refine ⟨hiff, fun o p ho hp => ?_⟩
  cases hmatches o p ho hp with
  | done a h =>
      cases h with
      | printed e' lines =>
          exact ⟨lines, ho.prints_iff rfl rfl rfl, hp.prints_iff rfl rfl rfl,
            .done a ⟨rfl, rfl, rfl⟩⟩
  | fault f h =>
      cases h with
      | printed e' lines =>
          exact ⟨lines, ho.prints_iff rfl rfl rfl, hp.prints_iff rfl rfl rfl,
            .fault f ⟨rfl, rfl, rfl⟩⟩
  | exhausted => exact absurd rfl ho.1

/-- A loaded file prints a line and assigns, and then an operand is missing. -/
theorem ends_of_printed_before_load :
    let e : Env := ⟨[[("a", .int 1)]]⟩
    let files : String → Option String := fun path =>
      if path = "f" then some "print a;a=\"b\";print a+c;" else none
    let start (output : Array String) : World := ⟨e, ⟨files, output, none⟩⟩
    let t : Tree := .load (.leaf ⟨.string, 1, some (.str "f")⟩)
    let w : World := ⟨⟨[[("a", .str "b")]]⟩, ⟨files, #["0", "1"], none⟩⟩
    t.Ends (start #["0"]) (.fault (.nameNotFound "c") w) ∧ t.Prints (start #["0"]) ["1"] ∧
    ∃ v, t.Ends (start #["x", "y"]) (.fault (.nameNotFound "c") v) ∧
      t.Prints (start #["x", "y"]) ["1"] ∧
      v.env = w.env ∧ v.host = ⟨files, #["x", "y", "1"], none⟩ := by
  intro e files start t w
  let a : Token := ⟨.ident, 1, some (.str "a")⟩
  let c : Token := ⟨.ident, 1, some (.str "c")⟩
  let b : Token := ⟨.string, 1, some (.str "b")⟩
  have hlex : lex "print a;a=\"b\";print a+c;" = .ok [⟨.kwPrint, 1, none⟩, a, ⟨.semi, 1, none⟩,
      a, ⟨.assign, 1, none⟩, b, ⟨.semi, 1, none⟩, ⟨.kwPrint, 1, none⟩, a, ⟨.plus, 1, none⟩, c,
      ⟨.semi, 1, none⟩, ⟨.eof, 1, none⟩] := by decide +kernel
  have htree : Tree.ofText "print a;a=\"b\";print a+c;" = .ok (.scope [.print (.leaf a),
      .assign a (.leaf b), .print (.binary ⟨.plus, 1, none⟩ (.leaf a) (.leaf c))]) := by
    rw [Tree.ofText, hlex]
    rfl
  have hends : t.Ends (start #["0"]) (.fault (.nameNotFound "c") w) := by
    refine ⟨by simp, 6, ?_⟩
    change interpret (eval 5) "print a;a=\"b\";print a+c;" (start #["0"]) = _
    rw [interpret, htree]
    rfl
  obtain ⟨hiff, hmatches⟩ := ends_of_printed_before e files #["0"] #["x", "y"] t
  obtain ⟨p, hp⟩ := hiff.1 ⟨_, hends⟩
  obtain ⟨lines, hprints, hprints', hlines⟩ := hmatches _ p hends hp
  cases hlines with
  | fault _ h =>
      obtain ⟨henv, hw, hv⟩ := h
      have hsplit : #["0"] ++ ["1"] = #["0"] ++ lines := congrArg Host.output hw
      obtain rfl : ["1"] = lines := by simpa using congrArg Array.toList hsplit
      exact ⟨hends, (hprints _).2 rfl, _, hp, (hprints' _).2 rfl, henv.symm, hv⟩

end Quill
