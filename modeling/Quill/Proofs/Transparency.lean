import Quill.Proofs.Quotes

/-!
Programs that do nothing but run another text. `exec` with a text between quotes, or
`load` with the path of a file between them, does what the text itself does: the text
comes through the quotes unchanged, the statement adds no frame and counts no lines of
its own, and what the text ends with is what the statement ends with. The statement
takes two levels of the tree, of which the text gives one back, so the two runs differ
by one unit of fuel and in nothing else.
-/

namespace Quill

open Eval

/-- A keyword and a text between quotes are read as the statement on that text. -/
theorem ofText_simple {k : Kind} {make : Tree → Tree} (hk : Grammar.Simple k make) {s : String}
    (hs : '"' ∉ s.toList) :
    Tree.ofText (k.text ++ " \"" ++ s ++ "\";") =
      .ok (make (.leaf ⟨.string, 1, some (.str s)⟩)) := by
  have hword : lex (k.text ++ " ") = .ok ([⟨k, 1, none⟩] ++ [⟨.eof, 1, none⟩]) := by
    cases hk <;> decide +kernel
  have hlex := lex_splice hs hword ";"
  have htext : k.text ++ " " ++ "\"" ++ s ++ "\"" ++ ";" = k.text ++ " \"" ++ s ++ "\";" := by
    simp [String.ext_iff]
  rw [htext, lexFrom_semi] at hlex
  refine Tree.ofText_eq_ok_iff.2 ⟨_, hlex, ?_⟩
  cases hk <;> rfl

section

variable {H : Type} [HostLike H]

theorem run_exec {s : String} (hs : '"' ∉ s.toList) (n : Nat) :
    run (H := H) (n + 2) ("exec \"" ++ s ++ "\";") = run (n + 1) s :=
  run_of_ofText (ofText_simple .exec hs) (n + 2)

theorem run_load {path : String} (hpath : '"' ∉ path.toList) (n : Nat) :
    run (H := H) (n + 2) ("load \"" ++ path ++ "\";") = loadFile path >>= run (n + 1) :=
  run_of_ofText (ofText_simple .load hpath) (n + 2)

/-- A text that does what another does, but with one unit of fuel more, ends alike. -/
theorem ends_iff_of_run {s t : String} {w : World H}
    (h : ∀ n, run (n + 2) s w = run (n + 1) t w) (o : Outcome Value H) :
    Ends s w o ↔ Ends t w o := by
  constructor
  · rintro ⟨ho, n, rfl⟩
    exact ⟨ho, n + 1, by rw [← h, run_extends (Nat.le_add_right n 2) s w ho]⟩
  · rintro ⟨ho, n, rfl⟩
    exact ⟨ho, n + 2, by rw [h, run_extends (Nat.le_add_right n 1) t w ho]⟩

end

theorem run_load_of_file {path source : String} (hpath : '"' ∉ path.toList) {w : World}
    (hfile : w.host.files path = some source) (n : Nat) :
    run (n + 2) ("load \"" ++ path ++ "\";") w = run (n + 1) source w := by
  rw [run_load hpath]
  simp only [Bind.bind, loadFile_of_some hfile]

theorem run_load_of_none {path : String} (hpath : '"' ∉ path.toList) {w : World}
    (hfile : w.host.files path = none) (n : Nat) :
    run (n + 2) ("load \"" ++ path ++ "\";") w = .fault (.fileNotLoaded path) w := by
  rw [run_load hpath]
  simp only [Bind.bind, loadFile_of_none hfile]

/-- To execute a text between quotes, or to load it from a file whose path stands between
them, is to run it: the one ends if and only if the other does, and with the same value
or the same fault, its line included, in the same world. Where there is no such file,
that is the fault, and nothing else happens. -/
theorem ends_exec_load {text : String} (htext : '"' ∉ text.toList) (w : World) :
    (∀ o, Ends ("exec \"" ++ text ++ "\";") w o ↔ Ends text w o) ∧
    (∀ source, w.host.files text = some source →
      ∀ o, Ends ("load \"" ++ text ++ "\";") w o ↔ Ends source w o) ∧
    (w.host.files text = none →
      ∀ o, Ends ("load \"" ++ text ++ "\";") w o ↔ o = .fault (.fileNotLoaded text) w) := by
  refine ⟨ends_iff_of_run fun n => by rw [run_exec htext], fun source hfile => ?_,
    fun hfile o => ?_⟩
  · exact ends_iff_of_run (run_load_of_file htext hfile)
  · have hends : Ends ("load \"" ++ text ++ "\";") w (.fault (.fileNotLoaded text) w) :=
      ⟨by simp, 2, run_load_of_none htext hfile 0⟩
    constructor
    · exact fun ho => ho.unique hends
    · rintro rfl
      exact hends

/-- The executed text is no program from its second line on, the loaded one has quotes
in it and fails on its second line, and the last file is not there. -/
theorem ends_exec_load_lines :
    let w : World :=
      .initial (.ofFiles fun path => if path = "f" then some "\"a\"==\n-\"b\";" else none)
    Ends "exec \"\n#\";" w (.fault (.lex "#" .unrecognized 2) w) ∧
    Ends "load \"f\";" w (.fault (.badOperand .minus .string 2) w) ∧
    Ends "load \"g\";" w (.fault (.fileNotLoaded "g") w) := by
  intro w
  have hexec : Ends "\n#" w (.fault (.lex "#" .unrecognized 2) w) := by
    have hlex : lex "\n#" = .error (.lex "#" .unrecognized 2) := by decide +kernel
    refine ⟨by simp, 0, ?_⟩
    simp only [run, interpret, Tree.ofText, hlex]
    rfl
  have hload : Ends "\"a\"==\n-\"b\";" w (.fault (.badOperand .minus .string 2) w) := by
    have hlex : lex "\"a\"==\n-\"b\";" = .ok [⟨.string, 1, some (.str "a")⟩, ⟨.equal, 1, none⟩,
        ⟨.minus, 2, none⟩, ⟨.string, 2, some (.str "b")⟩, ⟨.semi, 2, none⟩,
        ⟨.eof, 2, none⟩] := by decide +kernel
    have htree : Tree.ofText "\"a\"==\n-\"b\";" = .ok (.binary ⟨.equal, 1, none⟩
        (.leaf ⟨.string, 1, some (.str "a")⟩) (.unary ⟨.minus, 2, none⟩
          (.leaf ⟨.string, 2, some (.str "b")⟩))) := Tree.ofText_eq_ok_iff.2 ⟨_, hlex, rfl⟩
    exact ⟨by simp, 3, by rw [run_of_ofText htree]; rfl⟩
  obtain ⟨hquoted, -, -⟩ := @ends_exec_load "\n#" (by decide) w
  obtain ⟨-, hfile, -⟩ := @ends_exec_load "f" (by decide) w
  obtain ⟨-, -, hmissing⟩ := @ends_exec_load "g" (by decide) w
  exact ⟨(hquoted _).2 hexec, (hfile _ rfl _).2 hload, (hmissing rfl _).2 rfl⟩

end Quill
