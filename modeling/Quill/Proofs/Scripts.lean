import Quill.Proofs.Concatenation
import Quill.Proofs.Formatting

/-!
A script and its statements run one by one. Texts of one statement each, joined by
line ends, are read as the scope of these statements: the line end keeps the
tokens of one text from those of the next, and a statement closes itself. The
scope does what the single runs do in a frame that is added before the first and
dropped after the last, and it too stops at the first failure. Lines are counted
through the whole script and not within each text, so faults may differ in them.
-/

namespace Quill

open Grammar

/-- The text is a program of exactly one statement, and this is its tree. -/
def IsStatement (source : String) (t : Tree) : Prop :=
  ∃ w last, lex source = .ok (w ++ [last]) ∧ last.kind = .eof ∧ Statement .statement w t

theorem IsStatement.ofText_eq {source : String} {t : Tree} (h : IsStatement source t) :
    Tree.ofText source = .ok t := by
  obtain ⟨w, last, hlex, hlast, ht⟩ := h
  exact Tree.ofText_eq_ok_iff.2 ⟨_, hlex, ofTokens_of_derives (.one ht hlast)⟩

theorem exists_trees {sources : List String} (h : ∀ source ∈ sources, ∃ t, IsStatement source t) :
    ∃ trees, List.Forall₂ IsStatement sources trees := by
  induction sources with
  | nil => exact ⟨[], .nil⟩
  | cons source sources ih =>
      obtain ⟨t, ht⟩ := h source (by simp)
      obtain ⟨trees, htrees⟩ := ih fun s hs => h s (by simp [hs])
      exact ⟨t :: trees, .cons ht htrees⟩

/-! ### Reading a script -/

/-- Texts joined by line ends. -/
def script (sources : List String) : String := "\n".intercalate sources

theorem toList_script_cons {source : String} {sources : List String} (h : sources ≠ []) :
    (script (source :: sources)).toList = source.toList ++ '\n' :: (script sources).toList := by
  rw [script, String.intercalate_cons_of_ne_nil h]
  simp [script]

/-- A text of one statement has the tokens of that statement on any line. -/
theorem IsStatement.exists_lexed {source : String} {t : Tree} (h : IsStatement source t)
    (d : Nat) :
    ∃ w us last, Statement .statement w t ∧ Lexed (1 + d) source.toList (us ++ [last]) ∧
      last.kind = .eof ∧ us.map Token.unplaced = w.map Token.unplaced := by
  obtain ⟨w, last, hlex, hlast, ht⟩ := h
  have hlexed := (lexed_of_lexFrom hlex).lower d
  rw [List.map_append, List.map_singleton] at hlexed
  refine ⟨w, w.map (Token.lower d), last.lower d, ht, hlexed, hlast, ?_⟩
  rw [List.map_map]
  rfl

/-- The tokens of a script are those of its texts, lines apart. -/
theorem lexFrom_script {sources : List String} {trees : List Tree}
    (h : List.Forall₂ IsStatement sources trees) (hne : sources ≠ []) (d : Nat) :
    ∃ (body : List (List Token × Tree)) (us : List Token) (last : Token),
      (∀ p ∈ body, Statement .statement p.1 p.2) ∧ body.map Prod.snd = trees ∧
      lexFrom (1 + d) (script sources).toList = .ok (us ++ [last]) ∧ last.kind = .eof ∧
      us.map Token.unplaced = (body.flatMap Prod.fst).map Token.unplaced := by
  induction h generalizing d with
  | nil => exact absurd rfl hne
  | @cons source t sources trees hs hrest ih =>
      obtain ⟨w, us, last, ht, hlexed, hlast, hus⟩ := hs.exists_lexed d
      by_cases hsources : sources = []
      · subst hsources
        cases hrest
        refine ⟨[(w, t)], us, last, by simpa using ht, rfl, ?_, hlast, by simpa using hus⟩
        rw [script, String.intercalate_singleton]
        exact hlexed.lexFrom_eq
      · obtain ⟨vs, hvs, hlex⟩ := hlexed.append_blank (d := '\n') rfl (script sources).toList
        obtain ⟨rfl, -⟩ := List.append_inj' hvs rfl
        obtain ⟨body, us', last', hbody, rfl, hlex', hlast', hus'⟩ :=
          ih hsources (d + lineEnds source.toList + lineEnds ['\n'])
        refine ⟨(w, t) :: body, us ++ us', last', ?_, rfl, ?_, hlast', ?_⟩
        · rw [List.forall_mem_cons]
          exact ⟨ht, hbody⟩
        · rw [toList_script_cons hsources, hlex, Nat.add_assoc 1, Nat.add_assoc 1, hlex',
            List.append_assoc]
          rfl
        · rw [List.map_append, List.flatMap_cons, List.map_append, hus, hus']

/-- A script of several statements is read as the scope of them, lines apart. -/
theorem exists_ofText_script {sources : List String} {trees : List Tree}
    (h : List.Forall₂ IsStatement sources trees) (hlength : 2 ≤ sources.length) :
    ∃ u, Tree.ofText (script sources) = .ok u ∧ u.unplaced = (Tree.scope trees).unplaced := by
  have hne : sources ≠ [] := by
    rintro rfl
    simp at hlength
  obtain ⟨body, us, last, hbody, rfl, hlex, hlast, hus⟩ := lexFrom_script h hne 0
  have hone : body.length ≠ 1 := by
    have hsame := h.length_eq
    rw [List.length_map] at hsame
    omega
  have hunplaced : (us ++ [last]).map Token.unplaced =
      (body.flatMap Prod.fst ++ [last]).map Token.unplaced := by
    rw [List.map_append, List.map_append, hus]
  obtain ⟨u, hu, htree⟩ :=
    exists_ofTokens_of_unplaced hunplaced (ofTokens_of_derives (.several hbody hone hlast))
  exact ⟨u, Tree.ofText_eq_ok_iff.2 ⟨_, hlex, hu⟩, htree⟩

open Eval

variable {H : Type}

/-! ### Running it -/

/-- Texts are run in turn, up to the first that fails, and this is how it ends. -/
inductive RunInTurn [HostLike H] : List String → World H → Outcome Unit H → Prop
  | nil (w : World H) : RunInTurn [] w (.done () w)
  | done {source : String} {sources : List String} {w v : World H} {a : Value} {o : Outcome Unit H}
      (h : Ends source w (.done a v)) (hrest : RunInTurn sources v o) :
      RunInTurn (source :: sources) w o
  | fault {source : String} {sources : List String} {w v : World H} {f : Fault}
      (h : Ends source w (.fault f v)) : RunInTurn (source :: sources) w (.fault f v)

theorem sequence_of_done {step : Tree → Eval H Value} {t : Tree} {w v : World H} {a : Value}
    (h : step t w = .done a v) (ts : List Tree) :
    Eval.sequence step (t :: ts) w = Eval.sequence step ts v := by
  simp only [Eval.sequence, Bind.bind, h]

theorem sequence_of_fault {step : Tree → Eval H Value} {t : Tree} {w v : World H} {f : Fault}
    (h : step t w = .fault f v) (ts : List Tree) : Eval.sequence step (t :: ts) w = .fault f v := by
  simp only [Eval.sequence, Bind.bind, h]

theorem sequence_of_exhausted {step : Tree → Eval H Value} {t : Tree} {w : World H}
    (h : step t w = .exhausted) (ts : List Tree) : Eval.sequence step (t :: ts) w = .exhausted := by
  simp only [Eval.sequence, Bind.bind, h]

/-- Runs in turn are a sequence of evaluations, with fuel enough for each. -/
theorem runInTurn_iff [HostLike H] {sources : List String} {trees : List Tree}
    (h : List.Forall₂ IsStatement sources trees) {w : World H} {o : Outcome Unit H} :
    RunInTurn sources w o ↔ o ≠ .exhausted ∧ ∃ n, Eval.sequence (eval n) trees w = o := by
  induction h generalizing w with
  | nil =>
      constructor
      · rintro ⟨⟩
        exact ⟨by simp, 0, rfl⟩
      · rintro ⟨-, n, rfl⟩
        exact .nil w
  | @cons source t sources trees hs hrest ih =>
      have hrun (n : Nat) : run (H := H) n source = eval n t := run_of_ofText hs.ofText_eq n
      constructor
      · intro h
        cases h with
        | @done _ _ _ v a _ hfirst hothers =>
            obtain ⟨hne, n, hn⟩ := hfirst
            obtain ⟨ho, m, hm⟩ := ih.1 hothers
            rw [hrun] at hn
            -- The larger of the two amounts does for the first text and for the others.
            have hfirst : eval (max n m) t w = .done a v := by
              rw [eval_extends (Nat.le_max_left n m) t w (by rw [hn]; exact hne), hn]
            have hothers : Eval.sequence (eval (max n m)) trees v = o := by
              rw [Extends.sequence (eval_extends (Nat.le_max_right n m)) trees v
                (by rw [hm]; exact ho), hm]
            exact ⟨ho, max n m, by rw [sequence_of_done hfirst, hothers]⟩
        | fault hfirst =>
            obtain ⟨hne, n, hn⟩ := hfirst
            rw [hrun] at hn
            exact ⟨by simp, n, sequence_of_fault hn trees⟩
      · rintro ⟨ho, n, hn⟩
        cases hfirst : eval n t w with
        | done a v =>
            rw [sequence_of_done hfirst] at hn
            have hends : Ends source w (.done a v) := ⟨by simp, n, by rw [hrun, hfirst]⟩
            exact .done hends (ih.2 ⟨ho, n, hn⟩)
        | fault f v =>
            rw [sequence_of_fault hfirst] at hn
            subst hn
            exact .fault ⟨by simp, n, by rw [hrun, hfirst]⟩
        | exhausted =>
            rw [sequence_of_exhausted hfirst] at hn
            exact absurd hn.symm ho

/-- What comes of an outcome in a scope: the frame is dropped, and the value is
`nil`. -/
def Outcome.leave : Outcome Unit H → Outcome Value H
  | .done () w => .done .nil { w with env := w.env.pop }
  | .fault f w => .fault f { w with env := w.env.pop }
  | .exhausted => .exhausted

theorem eval_scope [HostLike H] (n : Nat) (body : List Tree) (w : World H) :
    eval (n + 1) (.scope body) w =
      (Eval.sequence (eval n) body { w with env := w.env.push }).leave := by
  change (inFrame (Eval.sequence (eval n) body) >>= fun _ => pure Value.nil) w = _
  simp only [Bind.bind, inFrame]
  cases Eval.sequence (eval n) body { w with env := w.env.push } <;> rfl

theorem Outcome.leave_ne_exhausted_iff (o : Outcome Unit H) :
    o.leave ≠ .exhausted ↔ o ≠ .exhausted := by
  cases o <;> simp [leave]

section

variable [HostLike H] {sources : List String} {trees : List Tree}
  (h : List.Forall₂ IsStatement sources trees) (hlength : 2 ≤ sources.length) (w : World H)

include h hlength

/-- With one unit of fuel more, the script does what the sequence of its statements
does in a frame of its own. -/
theorem alike_run_script (n : Nat) :
    Outcome.Alike (run (n + 1) (script sources) w)
      (Eval.sequence (eval n) trees { w with env := w.env.push }).leave := by
  obtain ⟨u, hu, hunplaced⟩ := exists_ofText_script h hlength
  rw [run_of_ofText hu, ← eval_scope]
  exact alike_eval hunplaced (n + 1) w

theorem exists_runInTurn_of_ends {o : Outcome Value H} (ho : Ends (script sources) w o) :
    ∃ p, RunInTurn sources { w with env := w.env.push } p := by
  obtain ⟨hne, n, rfl⟩ := ho
  cases n with
  | zero =>
      obtain ⟨u, hu, -⟩ := exists_ofText_script h hlength
      rw [run_of_ofText hu] at hne
      exact absurd rfl hne
  | succ n =>
      have hleave := (alike_run_script h hlength w n).ne_exhausted_iff.1 hne
      exact ⟨_, (runInTurn_iff h).2 ⟨(Outcome.leave_ne_exhausted_iff _).1 hleave, n, rfl⟩⟩

theorem exists_ends_of_runInTurn {p : Outcome Unit H}
    (hp : RunInTurn sources { w with env := w.env.push } p) :
    ∃ o, Ends (script sources) w o ∧ Outcome.Alike o p.leave := by
  obtain ⟨hne, n, rfl⟩ := (runInTurn_iff h).1 hp
  have halike := alike_run_script h hlength w n
  have hleave := (Outcome.leave_ne_exhausted_iff _).2 hne
  exact ⟨_, ⟨halike.ne_exhausted_iff.2 hleave, n + 1, rfl⟩, halike⟩

end

/-- A script of at least two statements does what its statements do when they are
run one by one between adding a frame and dropping it. One ends if and only if
the other does, and then in the same world: the script with `nil` if all single
runs succeed, and otherwise with the fault of the first that fails, up to its
line. -/
theorem run_script [HostLike H] {sources : List String} (hlength : 2 ≤ sources.length)
    (h : ∀ source ∈ sources, ∃ t, IsStatement source t) (w : World H) :
    ((∃ o, Ends (script sources) w o) ↔
      ∃ p, RunInTurn sources { w with env := w.env.push } p) ∧
    ∀ o p, Ends (script sources) w o → RunInTurn sources { w with env := w.env.push } p →
      (∀ v, p = .done () v → o = .done .nil { v with env := v.env.pop }) ∧
      (∀ f v, p = .fault f v →
        ∃ g, g.unplaced = f.unplaced ∧ o = .fault g { v with env := v.env.pop }) := by
  obtain ⟨trees, htrees⟩ := exists_trees h
  refine ⟨⟨?_, ?_⟩, ?_⟩
  · rintro ⟨o, ho⟩
    exact exists_runInTurn_of_ends htrees hlength w ho
  · rintro ⟨p, hp⟩
    obtain ⟨o, ho, -⟩ := exists_ends_of_runInTurn htrees hlength w hp
    exact ⟨o, ho⟩
  · intro o p ho hp
    obtain ⟨o', ho', halike⟩ := exists_ends_of_runInTurn htrees hlength w hp
    rw [ho'.unique ho] at halike
    constructor
    · rintro v rfl
      cases halike
      rfl
    · rintro f v rfl
      cases halike with
      | fault hf => exact ⟨_, hf, rfl⟩

/-- The second of two statements fails, and that on the second line of the script. -/
theorem run_script_negation :
    let w : World := .initial (.ofFiles fun _ => none)
    let v : World := { w with env := ⟨[[("a", .nil)], []]⟩ }
    RunInTurn ["let a;", "-true;"] { w with env := w.env.push }
      (.fault (.badOperand .minus .bool 1) v) ∧
    ∃ line, Ends "let a;\n-true;" w (.fault (.badOperand .minus .bool line) w) := by
  intro w v
  have hlet : IsStatement "let a;" (.declare ⟨.ident, 1, some (.str "a")⟩) := by
    refine ⟨[⟨.kwLet, 1, none⟩, ⟨.ident, 1, some (.str "a")⟩, ⟨.semi, 1, none⟩],
      ⟨.eof, 1, none⟩, ?_, rfl, .declare rfl rfl rfl⟩
    decide +kernel
  have hneg : IsStatement "-true;" (.unary ⟨.minus, 1, none⟩ (.leaf ⟨.kwTrue, 1, none⟩)) := by
    have hexpr : Expression .unary [⟨.minus, 1, none⟩, ⟨.kwTrue, 1, none⟩]
        (.unary ⟨.minus, 1, none⟩ (.leaf ⟨.kwTrue, 1, none⟩)) :=
      .sign (by decide) (.single (.literal (by decide)))
    refine ⟨[⟨.minus, 1, none⟩, ⟨.kwTrue, 1, none⟩, ⟨.semi, 1, none⟩], ⟨.eof, 1, none⟩, ?_, rfl,
      .expression hexpr.to_equality rfl⟩
    decide +kernel
  have hturn : RunInTurn ["let a;", "-true;"] { w with env := w.env.push }
      (.fault (.badOperand .minus .bool 1) v) := by
    have hfirst : Ends "let a;" { w with env := w.env.push } (.done .nil v) :=
      ⟨by simp, 1, by rw [run_of_ofText hlet.ofText_eq]; rfl⟩
    have hsecond : Ends "-true;" v (.fault (.badOperand .minus .bool 1) v) :=
      ⟨by simp, 2, by rw [run_of_ofText hneg.ofText_eq]; rfl⟩
    exact .done hfirst (.fault hsecond)
  obtain ⟨hiff, hsame⟩ := @run_script _ _ ["let a;", "-true;"] (by simp)
    (by simp only [List.forall_mem_cons]; exact ⟨⟨_, hlet⟩, ⟨_, hneg⟩, by simp⟩) w
  obtain ⟨o, ho⟩ := hiff.2 ⟨_, hturn⟩
  obtain ⟨g, hg, rfl⟩ := (hsame o _ ho hturn).2 _ v rfl
  refine ⟨hturn, ?_⟩
  cases g <;> cases hg
  exact ⟨_, ho⟩

end Quill
