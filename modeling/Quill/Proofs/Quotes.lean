import Quill.Proofs.Concatenation
import Quill.Proofs.Formatting
import Quill.Proofs.Invariants
import Quill.Proofs.Numerals

/-!
No program can make a string that holds a quote. A literal ends at the first quote
and there is no other way to write one, so none comes in with the program text, nor
with the texts that it loads or executes, quotes though these may have. After that
strings are only joined, with each other and with the texts of integers, and no
number has a quote in its text.

The other way round, a string without a quote can be put between two quotes, and
wherever that piece of text is spliced in between lexemes it is read as the string
again. So whatever string a session comes to hold can be handed back to it as text.
-/

namespace Quill

/-! ### The texts of values -/

/-- The value is not a string that holds a quote. -/
def Value.Quoteless : Value → Prop
  | .str s => '"' ∉ s.toList
  | _ => True

theorem Value.Quoteless.text {v : Value} (h : v.Quoteless) : '"' ∉ v.text.toList := by
  cases v with
  | str s => exact h
  | _ => exact Value.notMem_text (by decide) (by decide) nofun

/-! ### Operators -/

section

variable {a b c : Value} {line : Nat}

theorem quoteless_join {s t : String} (hs : '"' ∉ s.toList) (ht : '"' ∉ t.toList) :
    (Value.str (s ++ t)).Quoteless := by
  change '"' ∉ (s ++ t).toList
  rw [String.toList_append, List.mem_append]
  exact not_or.2 ⟨hs, ht⟩

theorem quoteless_of_arithmetic {op : BinaryOp} {exact : Int → Int → Int}
    {rounded : Float → Float → Float} (h : op.arithmetic exact rounded a b line = .ok c) :
    c.Quoteless := by
  unfold BinaryOp.arithmetic at h
  split at h <;> split at h <;> cases h <;> trivial

theorem quoteless_of_divide {op : BinaryOp} (h : op.divide a b line = .ok c) : c.Quoteless := by
  unfold BinaryOp.divide at h
  split at h
  · split at h <;> cases h
    trivial
  · cases h

theorem quoteless_of_ordering {op : BinaryOp} {accepts : Ordering → Bool}
    (h : op.ordering accepts a b line = .ok c) : c.Quoteless := by
  unfold BinaryOp.ordering at h
  split at h <;> cases h
  trivial

/-- Of all the operators only `+` makes strings, and it joins. -/
theorem quoteless_of_binary {op : BinaryOp} (ha : a.Quoteless) (hb : b.Quoteless)
    (h : op.apply a b line = .ok c) : c.Quoteless := by
  cases op with
  | add =>
      simp only [BinaryOp.apply] at h
      split at h
      · cases h
        exact quoteless_join ha hb
      · next s n =>
          cases h
          exact quoteless_join ha hb.text
      · next n t =>
          cases h
          exact quoteless_join ha.text hb
      · exact quoteless_of_arithmetic h
  | sub => exact quoteless_of_arithmetic h
  | mul => exact quoteless_of_arithmetic h
  | div => exact quoteless_of_divide h
  | equal =>
      cases h
      trivial
  | notEqual =>
      cases h
      trivial
  | less => exact quoteless_of_ordering h
  | lessEqual => exact quoteless_of_ordering h
  | greater => exact quoteless_of_ordering h
  | greaterEqual => exact quoteless_of_ordering h

theorem quoteless_of_unary {op : UnaryOp} (ha : a.Quoteless) (h : op.apply a line = .ok b) :
    b.Quoteless := by
  cases op with
  | neg =>
      simp only [UnaryOp.apply] at h
      split at h
      · split at h <;> cases h
        trivial
      · cases h
        trivial
      · cases h
  | not =>
      cases h
      trivial
  | plus =>
      cases h
      exact ha

end

/-! ### Worlds -/

namespace Frame

theorem mem_put {f : Frame} {x : String} {v : Value} {b : String × Value} (h : b ∈ f.put x v) :
    b = (x, v) ∨ b ∈ f := by
  induction f with
  | nil => exact .inl (List.mem_singleton.1 h)
  | cons c rest ih =>
      obtain ⟨n, u⟩ := c
      by_cases hn : n = x
      · subst hn
        rw [put, if_pos rfl] at h
        exact (List.mem_cons.1 h).imp_right (List.mem_cons_of_mem _)
      · rw [put, if_neg hn] at h
        rcases List.mem_cons.1 h with rfl | hmem
        · exact .inr (by simp)
        · exact (ih hmem).imp_right (List.mem_cons_of_mem _)

theorem mem_of_get? {f : Frame} {x : String} {v : Value} (h : f.get? x = some v) :
    (x, v) ∈ f := by
  induction f with
  | nil => cases h
  | cons c rest ih =>
      obtain ⟨n, u⟩ := c
      by_cases hn : n = x
      · rw [get?, if_pos hn] at h
        cases h
        simp [hn]
      · rw [get?, if_neg hn] at h
        exact List.mem_cons_of_mem _ (ih h)

end Frame

namespace Env

/-- The values in all frames are as demanded. -/
def All (V : Value → Prop) (e : Env) : Prop := ∀ f ∈ e.frames, ∀ b ∈ f, V b.2

variable {V : Value → Prop} {e : Env}

theorem all_put {f : Frame} (hf : ∀ b ∈ f, V b.2) (x : String) {v : Value} (hv : V v) :
    ∀ b ∈ f.put x v, V b.2 := by
  intro b hb
  rcases Frame.mem_put hb with rfl | hmem
  · exact hv
  · exact hf b hmem

theorem All.push (h : e.All V) : e.push.All V := List.forall_mem_cons.2 ⟨by simp, h⟩

theorem All.pop (h : e.All V) : e.pop.All V := fun f hf => h f (List.mem_of_mem_tail hf)

theorem All.declare (h : e.All V) (hnil : V .nil) (x : String) : (e.declare x).All V := by
  obtain ⟨fs⟩ := e
  cases fs with
  | nil => simpa [All, Env.declare, Frame.put] using hnil
  | cons f fs =>
      obtain ⟨hf, hfs⟩ := List.forall_mem_cons.1 h
      exact List.forall_mem_cons.2 ⟨all_put hf x hnil, hfs⟩

theorem All.of_read? (h : e.All V) {x : String} {v : Value} (hread : e.read? x = some v) :
    V v := by
  obtain ⟨f, hf, hget⟩ := List.exists_of_findSome?_eq_some hread
  exact h f hf _ (Frame.mem_of_get? hget)

theorem All.of_write? (h : e.All V) {x : String} {v : Value} (hv : V v) {e' : Env}
    (hwrite : e.write? x v = some e') : e'.All V := by
  obtain ⟨fs⟩ := e
  induction fs generalizing e' with
  | nil => cases hwrite
  | cons f fs ih =>
      obtain ⟨hf, hfs⟩ := List.forall_mem_cons.1 h
      cases hget : f.get? x with
      | some u =>
          rw [write?_cons_of_some hget] at hwrite
          cases hwrite
          exact List.forall_mem_cons.2 ⟨all_put hf x hv, hfs⟩
      | none =>
          rw [write?_cons_of_none hget] at hwrite
          obtain ⟨d, hd, rfl⟩ := Option.map_eq_some_iff.1 hwrite
          exact List.forall_mem_cons.2 ⟨hf, ih hfs hd⟩

end Env

/-- Neither a variable nor a printed line holds a quote. -/
structure World.Quoteless (w : World) : Prop where
  env : w.env.All Value.Quoteless
  output : ∀ text ∈ w.host.output, '"' ∉ text.toList

theorem World.quoteless_initial (files : String → Option String) :
    (World.initial (.ofFiles files)).Quoteless where
  env := by simp [World.initial, Env.initial, Env.All]
  output := by simp [World.initial, Host.ofFiles]

theorem invariant_quoteless : Invariant Value.Quoteless World.Quoteless where
  nil := trivial
  bool _ := trivial
  int _ := trivial
  str hs := hs
  binary := quoteless_of_binary
  unary := quoteless_of_unary
  push hw := ⟨hw.env.push, hw.output⟩
  pop hw := ⟨hw.env.pop, hw.output⟩
  declare hw _ := ⟨hw.env.declare trivial _, hw.output⟩
  read hw hread := hw.env.of_read? hread
  write hw ha hwrite := ⟨hw.env.of_write? ha hwrite, hw.output⟩
  print {w a} hw ha := by
    rcases w.host.print_eq_record_or_eq a.text with heq | heq
    · rw [heq]
      refine ⟨hw.env, fun text htext => ?_⟩
      rcases Array.mem_push.1 htext with hmem | rfl
      · exact hw.output text hmem
      · exact ha.text
    · rw [heq]
      exact hw
  load _ hw := hw

/-! ### Strings as literals -/

open Lexeme

theorem lexFrom_quoted {s : String} (h : '"' ∉ s.toList) (line : Nat) (rest : List Char) :
    lexFrom line ('"' :: s.toList ++ '"' :: rest) =
      (lexFrom (line + lineEnds s.toList) rest).map (⟨.string, line, some (.str s)⟩ :: ·) := by
  have hread : Lexeme.read '"' (s.toList ++ '"' :: rest) =
      .ok (⟨'"' :: s.toList ++ ['"'], .string, some (.str s)⟩, rest) := by
    have hstring := string_append h rest
    rwa [String.ofList_toList] at hstring
  have hline : lineEnds ('"' :: s.toList ++ ['"']) = lineEnds s.toList := by
    simp [lineEnds]
  rw [List.cons_append, lexFrom_of_read_ok rfl hread, hline]

/-- A string that can be handed back as text. It holds no quote, so between two quotes
it is one token, alone as well as spliced in between the lexemes of another text, and
as a program it has itself as its value. -/
structure Spliceable (s : String) : Prop where
  quoteless : '"' ∉ s.toList
  alone : lex ("\"" ++ s ++ "\"") =
    .ok [⟨.string, 1, some (.str s)⟩, ⟨.eof, 1 + lineEnds s.toList, none⟩]
  between {before : String} {ts : List Token} {line : Nat} :
    lex before = .ok (ts ++ [⟨.eof, line, none⟩]) → ∀ after : String,
      lex (before ++ "\"" ++ s ++ "\"" ++ after) =
        (lexFrom (line + lineEnds s.toList) after.toList).map
          (ts ++ ⟨.string, line, some (.str s)⟩ :: ·)
  run (w : World) : Ends ("\"" ++ s ++ "\"" ++ ";") w (.done (.str s) w)

theorem lex_quoted_append {s : String} (h : '"' ∉ s.toList) (after : String) :
    lex ("\"" ++ s ++ "\"" ++ after) =
      (lexFrom (1 + lineEnds s.toList) after.toList).map (⟨.string, 1, some (.str s)⟩ :: ·) := by
  rw [lex, ← lexFrom_quoted h]
  simp

theorem lex_splice {s : String} (h : '"' ∉ s.toList) {before : String} {ts : List Token}
    {line : Nat} (hbefore : lex before = .ok (ts ++ [⟨.eof, line, none⟩])) (after : String) :
    lex (before ++ "\"" ++ s ++ "\"" ++ after) =
      (lexFrom (line + lineEnds s.toList) after.toList).map
        (ts ++ ⟨.string, line, some (.str s)⟩ :: ·) := by
  obtain ⟨us, hus, hlex⟩ := (lexed_of_lexFrom hbefore).append grows_quote
    (s.toList ++ '"' :: after.toList)
  obtain ⟨rfl, heof⟩ := List.append_inj' hus rfl
  cases heof
  have htext : (before ++ "\"" ++ s ++ "\"" ++ after).toList =
      before.toList ++ '"' :: (s.toList ++ '"' :: after.toList) := by simp
  rw [lex, htext, hlex, ← List.cons_append, lexFrom_quoted h]
  cases lexFrom _ after.toList <;> rfl

theorem lexFrom_semi (line : Nat) :
    lexFrom line ";".toList = .ok [⟨.semi, line, none⟩, ⟨.eof, line, none⟩] := by
  have hread : Lexeme.read ';' [] = .ok (⟨[';'], .semi, none⟩, []) := rfl
  rw [show ";".toList = [';'] from rfl, lexFrom_of_read_ok rfl hread, lexFrom]
  rfl

theorem ends_quoted {s : String} (h : '"' ∉ s.toList) (w : World) :
    Ends ("\"" ++ s ++ "\"" ++ ";") w (.done (.str s) w) := by
  have hlex : lex ("\"" ++ s ++ "\"" ++ ";") = .ok [⟨.string, 1, some (.str s)⟩,
      ⟨.semi, 1 + lineEnds s.toList, none⟩, ⟨.eof, 1 + lineEnds s.toList, none⟩] := by
    rw [lex_quoted_append h, lexFrom_semi]
    rfl
  have htree : Tree.ofText ("\"" ++ s ++ "\"" ++ ";") =
      .ok (.leaf ⟨.string, 1, some (.str s)⟩) := Tree.ofText_eq_ok_iff.2 ⟨_, hlex, rfl⟩
  refine ⟨by simp, 1, ?_⟩
  rw [run_of_ofText htree]
  rfl

theorem spliceable_of_quoteless {s : String} (h : '"' ∉ s.toList) : Spliceable s where
  quoteless := h
  alone := by
    have hlex := lex_quoted_append h ""
    rw [String.append_empty, show "".toList = [] from rfl, lexFrom] at hlex
    exact hlex
  between := lex_splice h
  run := ends_quoted h

/-- However a session goes, on whatever files and with whatever failures, no string
that a variable holds and none that a line gives has a quote in it, and neither has
any printed line. So all these strings can be handed back as text. -/
theorem spliceable_of_session {files : String → Option String}
    {steps : List (String × Outcome Reply)} {w : World}
    (h : Session.Goes (.initial (.ofFiles files)) steps w) :
    (∀ f ∈ w.env.frames, ∀ x s, (x, .str s) ∈ f → Spliceable s) ∧
    (∀ line s v, (line, .done (.value (.str s)) v) ∈ steps → Spliceable s) ∧
    ∀ text ∈ w.host.output, '"' ∉ text.toList := by
  obtain ⟨hw, hsteps⟩ := invariant_quoteless.of_session h (World.quoteless_initial files)
  refine ⟨fun f hf x s hmem => ?_, fun line s v hmem => ?_, hw.output⟩
  · exact spliceable_of_quoteless (hw.env f hf _ hmem)
  · exact spliceable_of_quoteless (hsteps _ hmem).1

theorem evalLine_of_ofText {H : Type} [HostLike H] {line source : String} {t : Tree}
    (hline : Session.Request.ofLine line = .program source) (ht : Tree.ofText source = .ok t)
    (n : Nat) : Session.evalLine (H := H) n line = do return Reply.ofValue (← eval n t) := by
  simp only [Session.evalLine, hline, run_of_ofText ht]

/-- The string comes from a file that has quotes in it, and the second line fails
once it has printed. -/
theorem spliceable_of_session_loaded :
    let host : Host := .ofFiles fun path => if path = "f" then some "let s=\"a\"+1;" else none
    let w : World := ⟨⟨[[("s", .str "a1")]]⟩, host⟩
    let v : World := { w with host := { host with output := #["a1b"] } }
    let steps : List (String × Outcome Reply) :=
      [("load \"f\";", .done .nothing w), ("print s+\"b\";x;", .fault (.nameNotFound "x") v),
        ("s;", .done (.value (.str "a1")) v)]
    Session.Goes (.initial host) steps v ∧ Spliceable "a1" ∧ '"' ∉ "a1b".toList := by
  intro host w v steps
  let s : Token := ⟨.ident, 1, some (.str "s")⟩
  let x : Token := ⟨.ident, 1, some (.str "x")⟩
  let b : Token := ⟨.string, 1, some (.str "b")⟩
  have hfile : Tree.ofText "let s=\"a\"+1;" = .ok (.define s (.binary ⟨.plus, 1, none⟩
      (.leaf ⟨.string, 1, some (.str "a")⟩) (.leaf ⟨.int, 1, some (.int 1)⟩))) := by
    have hlex : lex "let s=\"a\"+1;" = .ok [⟨.kwLet, 1, none⟩, s, ⟨.assign, 1, none⟩,
        ⟨.string, 1, some (.str "a")⟩, ⟨.plus, 1, none⟩, ⟨.int, 1, some (.int 1)⟩,
        ⟨.semi, 1, none⟩, ⟨.eof, 1, none⟩] := by decide +kernel
    exact Tree.ofText_eq_ok_iff.2 ⟨_, hlex, rfl⟩
  have hload : Tree.ofText "load \"f\";" =
      .ok (.load (.leaf ⟨.string, 1, some (.str "f")⟩)) := by
    have hlex : lex "load \"f\";" = .ok [⟨.kwLoad, 1, none⟩, ⟨.string, 1, some (.str "f")⟩,
        ⟨.semi, 1, none⟩, ⟨.eof, 1, none⟩] := by decide +kernel
    exact Tree.ofText_eq_ok_iff.2 ⟨_, hlex, rfl⟩
  have hprint : Tree.ofText "print s+\"b\";x;" = .ok (.scope [.print (.binary ⟨.plus, 1, none⟩
      (.leaf s) (.leaf b)), .leaf x]) := by
    have hlex : lex "print s+\"b\";x;" = .ok [⟨.kwPrint, 1, none⟩, s, ⟨.plus, 1, none⟩, b,
        ⟨.semi, 1, none⟩, x, ⟨.semi, 1, none⟩, ⟨.eof, 1, none⟩] := by decide +kernel
    exact Tree.ofText_eq_ok_iff.2 ⟨_, hlex, rfl⟩
  have hname : Tree.ofText "s;" = .ok (.leaf s) := by
    have hlex : lex "s;" = .ok [s, ⟨.semi, 1, none⟩, ⟨.eof, 1, none⟩] := by decide +kernel
    exact Tree.ofText_eq_ok_iff.2 ⟨_, hlex, rfl⟩
  have heval : eval 5 (.load (.leaf ⟨.string, 1, some (.str "f")⟩)) (.initial host) =
      .done .nil w := by
    change run 4 "let s=\"a\"+1;" (.initial host) = .done .nil w
    rw [run_of_ofText hfile]
    rfl
  have hgoes : Session.Goes (.initial host) steps v := by
    refine .cons (n := 5) ?_ rfl (.cons (n := 5) ?_ rfl (.cons (n := 5) ?_ rfl (.nil v)))
    · rw [evalLine_of_ofText (by decide +kernel) hload]
      simp only [Bind.bind, heval]
      rfl
    · rw [evalLine_of_ofText (by decide +kernel) hprint]
      rfl
    · rw [evalLine_of_ofText (by decide +kernel) hname]
      rfl
  obtain ⟨-, hshown, houtput⟩ := spliceable_of_session hgoes
  exact ⟨hgoes, hshown "s;" "a1" v (by simp [steps]), houtput "a1b" (by simp [v])⟩

end Quill
