import Quill.Proofs.Frames
import Quill.Proofs.Quotes

/-!
Sessions that go on and on. Whatever lines a session is given, and however they
end, it stays in its one frame, and what is bound there are names that a program
could have declared, each of them once. No line is to blame for more than the
lines before it, so the statement is about a single line and carries over to all
that follow.

Some lines do nothing at all: those that ask to leave, commands, and texts that
are no program, since a text is read as a whole before any of it is evaluated. Such
lines are inert, and a session with any number of them left out is the same
session on the lines that remain.
-/

namespace Quill

variable {H : Type}

/-! ### Names in frames -/

namespace Env

/-- No frame has a name twice, and the names are words that are not reserved. -/
def Named (e : Env) : Prop := ∀ ns ∈ e.names, ns.Nodup ∧ ∀ x ∈ ns, IsName x

variable {e : Env}

theorem named_put {f : Frame} (hf : f.names.Nodup ∧ ∀ x ∈ f.names, IsName x) {x : String}
    (hx : IsName x) (v : Value) :
    (f.put x v).names.Nodup ∧ ∀ y ∈ (f.put x v).names, IsName y := by
  rw [Frame.names_put]
  split
  · exact hf
  · next hnew =>
      refine ⟨List.nodup_append.2 ⟨hf.1, by simp, ?_⟩, ?_⟩
      · intro y hy z hz
        rw [List.mem_singleton.1 hz]
        rintro rfl
        exact hnew hy
      · intro y hy
        rcases List.mem_append.1 hy with hold | hy
        · exact hf.2 y hold
        · exact List.mem_singleton.1 hy ▸ hx

theorem Named.push (h : e.Named) : e.push.Named :=
  List.forall_mem_cons.2 ⟨by simp [Frame.names], h⟩

theorem Named.pop (h : e.Named) : e.pop.Named := by
  intro ns hns
  obtain ⟨f, hf, rfl⟩ := List.mem_map.1 hns
  exact h _ (List.mem_map_of_mem (List.mem_of_mem_tail hf))

theorem Named.declare (h : e.Named) {x : String} (hx : IsName x) : (e.declare x).Named := by
  obtain ⟨fs⟩ := e
  cases fs with
  | nil =>
      refine List.forall_mem_cons.2 ⟨named_put (by simp [Frame.names]) hx .nil, ?_⟩
      simp
  | cons f fs =>
      obtain ⟨hf, hfs⟩ := List.forall_mem_cons.1 h
      exact List.forall_mem_cons.2 ⟨named_put hf hx .nil, hfs⟩

theorem Named.of_write? (h : e.Named) {x : String} {v : Value} {e' : Env}
    (hwrite : e.write? x v = some e') : e'.Named := by
  intro ns hns
  rw [names_of_write? hwrite] at hns
  exact h ns hns

end Env

/-- Values play no part in it: names come from declarations only. -/
theorem invariant_named [HostLike H] :
    Invariant (fun _ => True) fun w : World H => w.env.Named where
  nil := trivial
  bool _ := trivial
  int _ := trivial
  str _ := trivial
  binary _ _ _ := trivial
  unary _ _ := trivial
  push hw := hw.push
  pop hw := hw.pop
  declare hw hname := hw.declare hname
  read _ _ := trivial
  write hw _ hwrite := hw.of_write? hwrite
  print hw _ := hw
  load _ hw := hw

namespace Session

open Eval

/-! ### One line -/

theorem grown_of_line [HostLike H] {n : Nat} {line : String} {w v : World H}
    (h : (evalLine n line w).world? = some v) : Env.Grown w.env v.env := by
  cases hline : Request.ofLine line with
  | program source =>
      simp only [evalLine, hline] at h
      have hrun : Built (H := H) (run n source) := built_interpret (built_eval n) source
      exact respected_grown.of_built (.bind hrun fun _ => .pure _) h
  | _ =>
      simp only [evalLine, hline] at h
      cases h
      exact Env.grown_of_names rfl

/-- One frame, in which every name is a word that is not reserved and stands there
once. -/
def Tidy (w : World H) : Prop :=
  ∃ f, w.env.frames = [f] ∧ f.names.Nodup ∧ ∀ x ∈ f.names, IsName x

theorem tidy_initial (host : H) : Tidy (.initial host) := ⟨[], rfl, by simp [Frame.names]⟩

/-- A line does not end the order that it finds. -/
theorem Tidy.of_line [HostLike H] {n : Nat} {line : String} {w v : World H} (hw : Tidy w)
    (h : (evalLine n line w).world? = some v) : Tidy v := by
  obtain ⟨f, hframes, hf⟩ := hw
  have hnamed : w.env.Named := by
    intro ns hns
    rw [Env.names, hframes] at hns
    exact List.mem_singleton.1 hns ▸ hf
  have hnamed' : v.env.Named := (invariant_named.of_line n line w hnamed).world h
  obtain ⟨f', fs', hframes', -, hfs'⟩ := (grown_of_line h).exists_cons hframes
  obtain rfl : fs' = [] := List.map_eq_nil_iff.1 hfs'
  exact ⟨f', hframes', hnamed' _ (by simp [Env.names, hframes'])⟩

theorem evalLine_extends [HostLike H] {n m : Nat} (h : n ≤ m) (line : String) :
    Extends (H := H) (evalLine n line) (evalLine m line) := by
  unfold evalLine
  split
  · exact .refl _
  · exact .refl _
  · exact .refl _
  · exact (run_extends h _).bind fun _ => .refl _

/-- A line that ends does so in one way, whatever the fuel. -/
theorem evalLine_unique [HostLike H] {n m : Nat} {line : String} {w v v' : World H}
    (h : (evalLine n line w).world? = some v) (h' : (evalLine m line w).world? = some v') :
    evalLine n line w = evalLine m line w := by
  have hne {o : Outcome Reply H} {u : World H} (hu : o.world? = some u) : o ≠ .exhausted := by
    rintro rfl
    cases hu
  rcases Nat.le_total n m with hle | hle
  · exact (evalLine_extends hle line w (hne h)).symm
  · exact evalLine_extends hle line w (hne h')

/-! ### Lines that do nothing -/

/-- A line that cannot do anything: it asks to leave, it is a command, or it is no
program, be it that it cannot be cut into tokens or that its tokens make no tree. -/
inductive Inert (line : String) : Prop
  | quit (h : Request.ofLine line = .quit)
  | command {rest : List Char} (h : (Text.trim line).toList = ':' :: rest)
  | unlexed {f : Fault} (h : lex (Text.trim line) = .error f)
  | unparsed {ts : List Token} {f : Fault} (h : lex (Text.trim line) = .ok ts)
      (hparse : Tree.ofTokens ts = .error f)

/-- No token begins with a colon. -/
theorem lex_of_colon {s : String} {rest : List Char} (h : s.toList = ':' :: rest) :
    ∃ f, lex s = .error f := by
  have hread : Lexeme.read ':' rest = .error ([':'], .unrecognized) := by
    simp [Lexeme.read, Lexeme.mark?]
  exact ⟨_, by rw [lex, h, lexFrom_of_read_error rfl hread]⟩

theorem trim_eq_of_program {line source : String} (h : Request.ofLine line = .program source) :
    Text.trim line = source := by
  unfold Request.ofLine at h
  dsimp only at h
  split at h
  · cases h
  split at h
  · cases h
  split at h
  · cases h
  · cases h
    rfl

theorem Inert.ofText_eq {line source : String} (h : Inert line)
    (hline : Request.ofLine line = .program source) : ∃ f, Tree.ofText source = .error f := by
  obtain rfl := trim_eq_of_program hline
  cases h with
  | quit h =>
      rw [hline] at h
      cases h
  | command h =>
      obtain ⟨f, hf⟩ := lex_of_colon h
      exact ⟨f, by rw [Tree.ofText, hf]⟩
  | @unlexed f h => exact ⟨f, by rw [Tree.ofText, h]⟩
  | @unparsed ts f h hparse =>
      refine ⟨f, ?_⟩
      rw [Tree.ofText, h]
      exact hparse

theorem Inert.world?_eq [HostLike H] {line : String} (h : Inert line) (n : Nat) (w : World H) :
    (evalLine n line w).world? = some w := by
  cases hline : Request.ofLine line with
  | program source =>
      obtain ⟨f, hf⟩ := h.ofText_eq hline
      simp only [evalLine, hline, run, interpret, hf]
      rfl
  | _ =>
      simp only [evalLine, hline]
      rfl

/-! ### Whole sessions -/

section

variable [HostLike H]

theorem Goes.tidy {w u : World H} {steps : List (String × Outcome Reply H)} (h : Goes w steps u)
    (hw : Tidy w) : ∀ step ∈ steps, ∃ v, step.2.world? = some v ∧ Tidy v := by
  induction h with
  | nil w => simp
  | cons hline hworld _ ih =>
      have hv := hw.of_line (hline ▸ hworld)
      exact List.forall_mem_cons.2 ⟨⟨_, hworld, hv⟩, ih hv⟩

/-- Sessions that start alike and are given the same lines go alike. -/
theorem Goes.unique {w u u' : World H} {steps steps' : List (String × Outcome Reply H)}
    (h : Goes w steps u) (h' : Goes w steps' u')
    (hlines : steps'.map Prod.fst = steps.map Prod.fst) : steps' = steps ∧ u' = u := by
  induction h generalizing steps' u' with
  | nil w =>
      obtain rfl : steps' = [] := List.map_eq_nil_iff.1 hlines
      cases h'
      exact ⟨rfl, rfl⟩
  | @cons w v u line n o steps hline hworld _ ih =>
      cases h' with
      | nil => cases hlines
      | @cons _ v' _ line' n' o' steps' hline' hworld' hrest' =>
          simp only [List.map_cons, List.cons.injEq] at hlines
          obtain ⟨rfl, hlines⟩ := hlines
          subst hline hline'
          have heq := evalLine_unique hworld' hworld
          rw [heq] at hworld' ⊢
          obtain rfl := Option.some.inj (hworld.symm.trans hworld')
          obtain ⟨rfl, rfl⟩ := ih hrest' hlines
          exact ⟨rfl, rfl⟩

end

end Session

/-- The second list is the first without some of the members that have a property. -/
inductive Thinned {α : Type} (P : α → Prop) : List α → List α → Prop
  | nil : Thinned P [] []
  | keep (a : α) {as bs : List α} (h : Thinned P as bs) : Thinned P (a :: as) (a :: bs)
  | drop {a : α} (ha : P a) {as bs : List α} (h : Thinned P as bs) : Thinned P (a :: as) bs

namespace Session

variable [HostLike H]

/-- A session does without its inert lines: every other line ends as it did and
leaves the same world. -/
theorem Goes.thinned {w u : World H} {steps kept : List (String × Outcome Reply H)}
    (h : Goes w steps u) (hkept : Thinned (fun step => Inert step.1) steps kept) :
    Goes w kept u := by
  induction hkept generalizing w with
  | nil => exact h
  | keep step _ ih =>
      cases h with
      | cons hline hworld hrest => exact .cons hline hworld (ih hrest)
  | drop hinert _ ih =>
      cases h with
      | cons hline hworld hrest =>
          rw [← hline, hinert.world?_eq] at hworld
          cases hworld
          exact ih hrest

/-- Inert lines can be put into a session anywhere. -/
theorem Goes.exists_of_thinned {w u : World H} {steps : List (String × Outcome Reply H)}
    (h : Goes w steps u) {lines : List String} (hlines : Thinned Inert lines (steps.map Prod.fst)) :
    ∃ all, Goes w all u ∧ all.map Prod.fst = lines ∧
      Thinned (fun step => Inert step.1) all steps := by
  generalize hkept : steps.map Prod.fst = kept at hlines
  induction hlines generalizing w steps with
  | nil =>
      obtain rfl : steps = [] := List.map_eq_nil_iff.1 hkept
      exact ⟨[], h, rfl, .nil⟩
  | keep line _ ih =>
      cases h with
      | nil => cases hkept
      | cons hline hworld hrest =>
          simp only [List.map_cons, List.cons.injEq] at hkept
          obtain ⟨rfl, hkept⟩ := hkept
          obtain ⟨all, hall, hfst, hthinned⟩ := ih hrest hkept
          exact ⟨_ :: all, .cons hline hworld hall, by simp [hfst], .keep _ hthinned⟩
  | @drop line hinert _ _ _ ih =>
      obtain ⟨all, hall, hfst, hthinned⟩ := ih h hkept
      refine ⟨(line, evalLine 0 line w) :: all, ?_, by simp [hfst], ?_⟩
      · exact .cons rfl (hinert.world?_eq 0 w) hall
      · exact .drop (a := (line, evalLine 0 line w)) hinert hthinned

/-- After every line of a session, whatever came of it, there is one frame, its names
are distinct, and each is a word that is not reserved. If inert lines are left out,
the other lines end as they did and leave the worlds that they left, and there is no
other way for them to go; and a session to which inert lines are added goes as well,
and is the one without them apart from these. -/
theorem goes_without_inert {host : H} {steps : List (String × Outcome Reply H)} {u : World H}
    (h : Goes (.initial host) steps u) :
    (∀ step ∈ steps, ∃ v, step.2.world? = some v ∧ Tidy v) ∧
    (∀ kept, Thinned (fun step => Inert step.1) steps kept →
      Goes (.initial host) kept u ∧
      ∀ others u', Goes (.initial host) others u' →
        others.map Prod.fst = kept.map Prod.fst → others = kept ∧ u' = u) ∧
    ∀ lines, Thinned Inert lines (steps.map Prod.fst) →
      ∃ all, Goes (.initial host) all u ∧ all.map Prod.fst = lines ∧
        Thinned (fun step => Inert step.1) all steps := by
  refine ⟨h.tidy (tidy_initial host), fun kept hkept => ?_, fun lines => h.exists_of_thinned⟩
  have hgoes := h.thinned hkept
  exact ⟨hgoes, fun others u' hothers hlines => hgoes.unique hothers hlines⟩

/-- A listing and a text that is no program stand between a declaration and a block
that fails, and nothing is missed without them. -/
theorem goes_without_inert_failing :
    let w : World := ⟨⟨[[("a", .int 1)]]⟩, .ofFiles fun _ => none⟩
    let fails : String × Outcome Reply := ("{let z;y=1;}", .fault (.nameNotFound "y") w)
    let steps : List (String × Outcome Reply) := [("let a=1;", .done .nothing w),
      (":env", .done (.info (describe w.env)) w),
      ("1 2", .fault (.parse (.kind .semi) (some "2") 1) w), fails]
    Goes (.initial w.host) steps w ∧
    (∀ step ∈ steps, ∃ v, step.2.world? = some v ∧ Tidy v) ∧
    Goes (.initial w.host) [("let a=1;", .done .nothing w), fails] w := by
  intro w fails steps
  let a : Token := ⟨.ident, 1, some (.str "a")⟩
  let y : Token := ⟨.ident, 1, some (.str "y")⟩
  let z : Token := ⟨.ident, 1, some (.str "z")⟩
  let one : Token := ⟨.int, 1, some (.int 1)⟩
  let semi : Token := ⟨.semi, 1, none⟩
  let eof : Token := ⟨.eof, 1, none⟩
  have hlet : Tree.ofText "let a=1;" = .ok (.define a (.leaf one)) := by
    have hlex : lex "let a=1;" =
        .ok [⟨.kwLet, 1, none⟩, a, ⟨.assign, 1, none⟩, one, semi, eof] := by decide +kernel
    exact Tree.ofText_eq_ok_iff.2 ⟨_, hlex, rfl⟩
  have hblock : Tree.ofText "{let z;y=1;}" = .ok (.scope [.declare z, .assign y (.leaf one)]) := by
    have hlex : lex "{let z;y=1;}" = .ok [⟨.lbrace, 1, none⟩, ⟨.kwLet, 1, none⟩, z, semi, y,
        ⟨.assign, 1, none⟩, one, semi, ⟨.rbrace, 1, none⟩, eof] := by decide +kernel
    exact Tree.ofText_eq_ok_iff.2 ⟨_, hlex, rfl⟩
  have hnumbers : lex "1 2" = .ok [one, ⟨.int, 1, some (.int 2)⟩, eof] := by decide +kernel
  have hrequest : Request.ofLine ":env" = .listing ∧ Request.ofLine "1 2" = .program "1 2" := by
    decide +kernel
  have hgoes : Goes (.initial w.host) steps w := by
    refine .cons (n := 5) ?_ rfl (.cons (n := 5) ?_ rfl (.cons (n := 5) ?_ rfl
      (.cons (n := 5) ?_ rfl (.nil w))))
    · rw [evalLine_of_ofText (by decide +kernel) hlet]
      rfl
    · simp only [evalLine, hrequest.1]
    · simp only [evalLine, hrequest.2, run, Eval.interpret, Tree.ofText, hnumbers]
      rfl
    · rw [evalLine_of_ofText (by decide +kernel) hblock]
      rfl
  obtain ⟨htidy, hthinned, -⟩ := goes_without_inert hgoes
  refine ⟨hgoes, htidy, (hthinned _ ?_).1⟩
  have hcolon : (Text.trim ":env").toList = ':' :: ['e', 'n', 'v'] := by decide +kernel
  have htrim : Text.trim "1 2" = "1 2" := by decide +kernel
  refine .keep _ (.drop ?_ (.drop ?_ (.keep _ .nil)))
  · exact .command hcolon
  · exact .unparsed (by rw [htrim, hnumbers]) rfl

end Session

end Quill
