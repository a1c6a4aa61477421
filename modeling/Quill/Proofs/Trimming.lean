import Quill.Proofs.Sessions

/-!
Trimming a line of a session does not change what it does. White space is wider than
the blanks of program text, but where a line has tokens at all this makes no difference
at its ends: a lexeme neither begins nor ends with white space, so what is trimmed off
stands outside of all lexemes, strings included, and there the only white space that
lexing lets pass are blanks. The tokens are the same, on lines that count from the first
one that is left, and such tokens are read and evaluated alike.

The commands of a session begin with a colon, which begins no token. So no line that has
tokens is taken for a command, and a line of blanks alone is the one that asks to leave.
-/

namespace Quill

open Lexeme

/-! ### White space and lexemes -/

namespace Text

theorem Ranges.exists_of_covers {ranges : Ranges} {n : Nat} (h : ranges.covers n) :
    ∃ r ∈ ranges, r.1 ≤ n ∧ n ≤ r.2 := by
  induction ranges with
  | nil => cases h
  | cons r ranges ih =>
      obtain ⟨first, last⟩ := r
      unfold covers at h
      split at h
      · cases h
      split at h
      · exact ⟨(first, last), by simp, by omega, by omega⟩
      · obtain ⟨r, hr, hn⟩ := ih h
        exact ⟨r, List.mem_cons_of_mem _ hr, hn⟩

theorem isSpace_of_isBlank {c : Char} (h : isBlank c) : isSpace c := by
  simp only [isBlank, Bool.or_eq_true, decide_eq_true_eq] at h
  rcases h with ((rfl | rfl) | rfl) | rfl <;> rfl

theorem toNat_bounds_of_isAlphanum {c : Char} (h : c.isAlphanum) :
    48 ≤ c.toNat ∧ c.toNat ≤ 122 := by
  rcases (Bool.or_eq_true c.isAlpha c.isDigit).mp h with halpha | hdigit
  · rcases (Bool.or_eq_true c.isUpper c.isLower).mp halpha with hupper | hlower
    · obtain ⟨hlow, hhigh⟩ := of_decide_eq_true hupper
      have hA : 65 ≤ c.toNat := UInt32.le_iff_toNat_le.1 hlow
      have hZ : c.toNat ≤ 90 := UInt32.le_iff_toNat_le.1 hhigh
      omega
    · obtain ⟨hlow, hhigh⟩ := (Bool.and_eq_true _ _).mp hlower
      have ha : 97 ≤ c.toNat := UInt32.le_iff_toNat_le.1 (of_decide_eq_true hlow)
      have hz : c.toNat ≤ 122 := UInt32.le_iff_toNat_le.1 (of_decide_eq_true hhigh)
      omega
  · obtain ⟨hzero, hnine⟩ : 48 ≤ c.toNat ∧ c.toNat ≤ 57 := Char.isDigit_iff_toNat.1 hdigit
    omega

theorem isSpace_eq_false_of_isAlphanum {c : Char} (h : c.isAlphanum) : isSpace c = false := by
  have hapart : ∀ r ∈ spaceRanges, r.2 < 48 ∨ 122 < r.1 := by decide
  rw [Bool.eq_false_iff]
  intro hspace
  obtain ⟨r, hr, hlow, hhigh⟩ := Ranges.exists_of_covers hspace
  have hbounds := toNat_bounds_of_isAlphanum h
  have hout := hapart r hr
  omega

end Text

open Text

/-- There is no white space at the ends of a text. -/
structure Tight (cs : List Char) : Prop where
  head : ∀ c ∈ cs.head?, isSpace c = false
  last : ∀ c ∈ cs.getLast?, isSpace c = false

theorem tight_of_forall {cs : List Char} (h : ∀ c ∈ cs, isSpace c = false) : Tight cs :=
  ⟨fun c hc => h c (List.mem_of_mem_head? hc), fun c hc => h c (List.mem_of_mem_getLast? hc)⟩

theorem isSpace_of_mem_marks {p : List Char × Kind} (hp : p ∈ marks) {c : Char} (hc : c ∈ p.1) :
    isSpace c = false := by
  have hmarks : (marks.flatMap Prod.fst).all fun c => !isSpace c := by decide
  simpa using List.all_eq_true.1 hmarks c (List.mem_flatMap.2 ⟨p, hp, hc⟩)

theorem Lexeme.IsLexeme.tight {l : List Char} (h : IsLexeme l) : Tight l := by
  rcases h with hword | ⟨-, hdigits⟩ | ⟨body, -, rfl⟩ | hmark
  · exact tight_of_forall fun c hc => isSpace_eq_false_of_isAlphanum (hword.all_isAlphanum c hc)
  · refine tight_of_forall fun c hc => isSpace_eq_false_of_isAlphanum ?_
    simp [Char.isAlphanum, hdigits c hc]
  · -- Whatever a string holds, at its ends are the quotes.
    refine ⟨fun c hc => ?_, fun c hc => ?_⟩
    · cases hc
      rfl
    · rw [List.getLast?_concat] at hc
      cases hc
      rfl
  · obtain ⟨p, hp, rfl⟩ := List.mem_map.1 hmark
    exact tight_of_forall fun c hc => isSpace_of_mem_marks hp hc

/-! ### Trimming -/

/-- What is trimmed off a text is the white space around a part without any at its ends. -/
theorem Text.trim_eq_of_append {s : String} {before body after : List Char}
    (hs : s.toList = before ++ (body ++ after)) (hbefore : ∀ c ∈ before, isSpace c)
    (hafter : ∀ c ∈ after, isSpace c) (hbody : Tight body) (hne : body ≠ []) :
    trim s = String.ofList body := by
  have hfront : s.toList.dropWhile isSpace = body ++ after := by
    rw [hs, dropWhile_append_of_head hbefore]
    intro c hc
    rw [List.head?_append_of_ne_nil _ hne] at hc
    exact hbody.head c hc
  have hback : (body ++ after).reverse.dropWhile isSpace = body.reverse := by
    rw [List.reverse_append, dropWhile_append_of_head]
    · exact fun c hc => hafter c (List.mem_reverse.1 hc)
    · intro c hc
      rw [List.head?_reverse] at hc
      exact hbody.last c hc
  rw [trim, hfront, hback, List.reverse_reverse]

/-! ### The tokens of a trimmed text -/

/-- A lexeme is read in the same way if text at the far end is missing. -/
theorem Lexeme.read_of_append {c : Char} {cs rest after : List Char} {l : Lexeme}
    (hc : isBlank c = false) (h : read c (cs ++ after) = .ok (l, rest ++ after)) :
    read c cs = .ok (l, rest) := by
  obtain ⟨text, kind, value⟩ := l
  have hdenotes := denotes_of_read hc h
  have htext : text ++ rest = c :: cs := by
    have happend := text_append_of_read h
    rw [← List.append_assoc, ← List.cons_append] at happend
    exact List.append_cancel_right happend
  obtain _ | ⟨c', text⟩ := text
  · exact absurd rfl (text_ne_nil_of_read h)
  rw [List.cons_append] at htext
  obtain ⟨rfl, rfl⟩ := List.cons.inj htext
  refine read_append hdenotes fun d hd => grows_of_read h d ?_
  rw [List.head?_append, Option.mem_def.1 hd]
  rfl

namespace Lexed

variable {line : Nat} {cs : List Char} {ts : List Token}

/-- Text that starts further up has the same tokens further up. -/
theorem exists_lower {d : Nat} (h : Lexed (line + d) cs ts) :
    ∃ us, Lexed line cs us ∧ ts = us.map (Token.lower d) := by
  generalize hstart : line + d = start at h
  induction h generalizing line with
  | nil start =>
      subst hstart
      exact ⟨_, .nil line, rfl⟩
  | @blank start c cs ts hc _ ih =>
      obtain ⟨us, hus, rfl⟩ := @ih (line + lineEnds [c]) (by omega)
      exact ⟨us, .blank hc hus, rfl⟩
  | @lexeme start c cs rest l ts hc hread _ ih =>
      obtain ⟨us, hus, rfl⟩ := @ih (line + lineEnds l.text) (by omega)
      subst hstart
      exact ⟨_, .lexeme hc hread hus, rfl⟩

/-- At the front of a text that has tokens white space is blank, and without it the
tokens are the same on the same lines. -/
theorem exists_front (h : Lexed line cs ts) :
    ∃ before body, cs = before ++ body ∧ (∀ c ∈ before, isBlank c) ∧
      (∀ c ∈ body.head?, isSpace c = false) ∧ Lexed (line + lineEnds before) body ts := by
  induction h with
  | nil line => exact ⟨[], [], rfl, by simp, by simp, .nil line⟩
  | @blank line c cs ts hc _ ih =>
      obtain ⟨before, body, rfl, hbefore, hbody, hlexed⟩ := ih
      refine ⟨c :: before, body, rfl, List.forall_mem_cons.2 ⟨hc, hbefore⟩, hbody, ?_⟩
      rwa [Nat.add_assoc, ← lineEnds_append] at hlexed
  | @lexeme line c cs rest l ts hc hread hrest _ =>
      refine ⟨[], c :: cs, rfl, by simp, fun d hd => ?_, .lexeme hc hread hrest⟩
      have htight : Tight l.text := (denotes_of_read hc hread).isLexeme.tight
      refine htight.head d ?_
      rw [← text_append_of_read hread, List.head?_append_of_ne_nil _ (text_ne_nil_of_read hread)]
        at hd
      exact hd

theorem eq_of_nil (h : Lexed line [] ts) : ts = [⟨.eof, line, none⟩] := by
  cases h
  rfl

/-- At the end of a text that has tokens white space is blank, and without it the tokens
are the same, but for the line of the end mark. -/
theorem exists_back (h : Lexed line cs ts) :
    ∃ body after us, cs = body ++ after ∧ (∀ c ∈ after, isBlank c) ∧
      (∀ c ∈ body.getLast?, isSpace c = false) ∧
      ts = us ++ [⟨.eof, line + lineEnds cs, none⟩] ∧
      Lexed line body (us ++ [⟨.eof, line + lineEnds body, none⟩]) := by
  induction h with
  | nil line => exact ⟨[], [], [], rfl, by simp, by simp, rfl, .nil line⟩
  | @blank line c cs ts hc _ ih =>
      obtain ⟨body, after, us, rfl, hafter, hlast, rfl, hlexed⟩ := ih
      have hline (ds : List Char) :
          line + lineEnds [c] + lineEnds ds = line + lineEnds (c :: ds) := by
        rw [Nat.add_assoc, ← lineEnds_append, List.singleton_append]
      rw [hline] at hlexed ⊢
      obtain _ | ⟨d, body⟩ := body
      · -- Behind this blank are blanks only, so it is trimmed off with them.
        obtain rfl : us = [] := by simpa using hlexed.eq_of_nil
        exact ⟨[], c :: after, [], rfl, List.forall_mem_cons.2 ⟨hc, hafter⟩, by simp, rfl,
          .nil line⟩
      · refine ⟨c :: d :: body, after, us, rfl, hafter, ?_, rfl, .blank hc hlexed⟩
        rwa [List.getLast?_cons_cons]
  | @lexeme line c cs rest l ts hc hread _ ih =>
      obtain ⟨body, after, us, rfl, hafter, hlast, rfl, hlexed⟩ := ih
      have htext := text_append_of_read hread
      obtain ⟨c', text, hl⟩ := List.exists_cons_of_ne_nil (text_ne_nil_of_read hread)
      rw [hl, List.cons_append, ← List.append_assoc] at htext
      obtain ⟨rfl, rfl⟩ := List.cons.inj htext
      have hline (ds : List Char) :
          line + lineEnds l.text + lineEnds ds = line + lineEnds (c' :: (text ++ ds)) := by
        rw [Nat.add_assoc, ← lineEnds_append, hl, List.cons_append]
      rw [hline] at hlexed ⊢
      refine ⟨c' :: (text ++ body), after, ⟨l.kind, line, l.value⟩ :: us, rfl, hafter, ?_, ?_,
        .lexeme hc (read_of_append hc hread) hlexed⟩
      · intro d hd
        rw [← List.cons_append, ← hl, List.getLast?_append, Option.mem_def, Option.or_eq_some_iff]
          at hd
        rcases hd with hd | ⟨-, hd⟩
        · exact hlast d hd
        · exact (denotes_of_read hc hread).isLexeme.tight.last d hd
      · rw [List.append_assoc]
        rfl

end Lexed

theorem Token.lower_zero (t : Token) : t.lower 0 = t := rfl

/-- A line that has tokens, and is not white space altogether, keeps them when it is
trimmed. They may come to be on other lines if there are any. -/
theorem exists_lex_trim {line : String} {ts : List Token} (h : lex line = .ok ts)
    (hline : ¬ ∀ c ∈ line.toList, isSpace c) :
    trim line ≠ "" ∧ ∃ us, lex (trim line) = .ok us ∧
      us.map Token.unplaced = ts.map Token.unplaced ∧ ('\n' ∉ line.toList → us = ts) := by
  obtain ⟨before, rest, hrest, hbefore, hhead, hlexed⟩ := (lexed_of_lexFrom h).exists_front
  obtain ⟨body, after, us, rfl, hafter, hlast, rfl, hbody⟩ := hlexed.exists_back
  have hne : body ≠ [] := by
    rintro rfl
    refine hline fun c hc => ?_
    rw [hrest] at hc
    rcases List.mem_append.1 hc with hc | hc
    · exact isSpace_of_isBlank (hbefore c hc)
    · exact isSpace_of_isBlank (hafter c hc)
  have htight : Tight body := by
    refine ⟨fun c hc => hhead c ?_, hlast⟩
    rwa [List.head?_append_of_ne_nil _ hne]
  have htrim : trim line = String.ofList body :=
    trim_eq_of_append hrest (fun c hc => isSpace_of_isBlank (hbefore c hc))
      (fun c hc => isSpace_of_isBlank (hafter c hc)) htight hne
  obtain ⟨vs, hvs, hlower⟩ := hbody.exists_lower
  refine ⟨?_, vs, ?_, ?_, fun hlines => ?_⟩
  · rw [htrim, ne_eq, String.ofList_eq_empty_iff]
    exact hne
  · rw [lex, htrim, String.toList_ofList]
    exact hvs.lexFrom_eq
  · have hunplaced : (vs.map (Token.lower (lineEnds before))).map Token.unplaced =
        vs.map Token.unplaced := List.map_map
    rw [← hunplaced, ← hlower, List.map_append, List.map_append]
    rfl
  · -- Without line ends nothing is lowered, and the end mark stays where it is.
    have hzero : lineEnds line.toList = 0 := List.count_eq_zero.2 hlines
    rw [hrest, lineEnds_append, lineEnds_append] at hzero
    have hfront : lineEnds before = 0 := by omega
    have hback : lineEnds after = 0 := by omega
    rw [lineEnds_append, hback, Nat.add_zero, hlower, hfront]
    exact (List.map_id'' Token.lower_zero vs).symm

/-! ### Lines of a session -/

variable {H : Type}

/-- What a session makes of the outcome of a program. -/
def Outcome.reply : Outcome Value H → Outcome Reply H
  | .done a w => .done (Reply.ofValue a) w
  | .fault f w => .fault f w
  | .exhausted => .exhausted

theorem Reply.eq_ofValue_iff (r : Reply) (a : Value) :
    r = Reply.ofValue a ↔ a = .nil ∧ r = .nothing ∨ a ≠ .nil ∧ r = .value a := by
  cases a <;> simp [Reply.ofValue]

namespace Session

open Eval

/-- The line ends with this outcome from a world, given fuel enough. -/
def LineEnds [HostLike H] (line : String) (w : World H) (o : Outcome Reply H) : Prop :=
  o ≠ .exhausted ∧ ∃ n, evalLine n line w = o

/-- A line that is no white space altogether asks for a program unless it begins with a
colon. -/
theorem ofLine_eq_program {line : String} (hne : Text.trim line ≠ "")
    (hcolon : ∀ rest, (Text.trim line).toList ≠ ':' :: rest) :
    Request.ofLine line = .program (Text.trim line) := by
  have hcommand {s : String} {rest : List Char} (hs : s.toList = ':' :: rest) :
      Text.trim line ≠ s := by
    rintro rfl
    exact hcolon rest hs
  have hquit : ¬(Text.trim line = "" ∨ Text.trim line = ":quit" ∨ Text.trim line = ":q") := by
    rintro (h | h | h)
    · exact hne h
    · exact hcommand rfl h
    · exact hcommand rfl h
  have hhelp : ¬(Text.trim line = ":help" ∨ Text.trim line = ":h") := by
    rintro (h | h)
    · exact hcommand rfl h
    · exact hcommand rfl h
  have henv : ¬Text.trim line = ":env" := hcommand rfl
  simp only [Request.ofLine, if_neg hquit, if_neg hhelp, if_neg henv]

theorem evalLine_eq_reply [HostLike H] {line source : String}
    (h : Request.ofLine line = .program source) (n : Nat) (w : World H) :
    evalLine n line w = (run n source w).reply := by
  simp only [evalLine, h, Bind.bind]
  cases run n source w <;> rfl

theorem alike_reply {o p : Outcome Value H} (h : Outcome.Alike o p) :
    Outcome.Alike o.reply p.reply := by
  cases h with
  | done a w => exact .done _ w
  | fault h w => exact .fault h w
  | exhausted => exact .exhausted

theorem reply_ne_exhausted_iff (o : Outcome Value H) : o.reply ≠ .exhausted ↔ o ≠ .exhausted := by
  cases o <;> simp [Outcome.reply]

section

variable [HostLike H] {line : String} {ts : List Token} (hlex : lex line = .ok ts)
  (hline : ¬ ∀ c ∈ line.toList, Text.isSpace c)

include hlex hline

/-- A line that has tokens asks for a program, and with any amount of fuel the program
does what the line does untrimmed. -/
theorem alike_evalLine :
    Request.ofLine line = .program (Text.trim line) ∧
    (∀ n (w : World H), Outcome.Alike (evalLine n line w) (run n line w).reply) ∧
    ('\n' ∉ line.toList → ∀ n (w : World H), evalLine n line w = (run n line w).reply) := by
  obtain ⟨hne, us, hus, hunplaced, hsame⟩ := exists_lex_trim hlex hline
  have hrequest : Request.ofLine line = .program (Text.trim line) := by
    refine ofLine_eq_program hne fun rest hcolon => ?_
    obtain ⟨f, hf⟩ := lex_of_colon hcolon
    rw [hus] at hf
    cases hf
  refine ⟨hrequest, fun n w => ?_, fun hlines n w => ?_⟩
  · rw [evalLine_eq_reply hrequest]
    exact alike_reply (alike_run_of_unplaced hlex hus hunplaced n w)
  · have htext : Tree.ofText (Text.trim line) = Tree.ofText line := by
      rw [Tree.ofText, Tree.ofText, hus, hlex, hsame hlines]
    rw [evalLine_eq_reply hrequest, run, run, interpret, interpret, htext]

theorem exists_ends_of_lineEnds {w : World H} {o : Outcome Reply H} (h : LineEnds line w o) :
    ∃ p, Ends line w p ∧ Outcome.Alike o p.reply ∧ ('\n' ∉ line.toList → o = p.reply) := by
  obtain ⟨hne, n, rfl⟩ := h
  obtain ⟨-, halike, hsame⟩ := alike_evalLine (H := H) hlex hline
  refine ⟨run n line w, ⟨?_, n, rfl⟩, halike n w, fun hlines => hsame hlines n w⟩
  exact (reply_ne_exhausted_iff _).1 ((halike n w).ne_exhausted_iff.1 hne)

theorem exists_lineEnds_of_ends {w : World H} {p : Outcome Value H} (h : Ends line w p) :
    ∃ o, LineEnds line w o ∧ Outcome.Alike o p.reply ∧ ('\n' ∉ line.toList → o = p.reply) := by
  obtain ⟨hne, n, rfl⟩ := h
  obtain ⟨-, halike, hsame⟩ := alike_evalLine (H := H) hlex hline
  refine ⟨evalLine n line w, ⟨?_, n, rfl⟩, halike n w, fun hlines => hsame hlines n w⟩
  exact (halike n w).ne_exhausted_iff.2 ((reply_ne_exhausted_iff _).2 hne)

end

/-- Trimming and commands do not change programs. A line that has tokens and is not
white space altogether asks for the program that it is when trimmed, never to leave nor
for a command. From any world the line ends without a fault exactly when the untrimmed
program does, in the same world, and gives the value of the program unless this is
`nil`. It fails exactly when the program does, also in the same world, with the same
fault up to its line, and with the very same fault if the line holds no line end. -/
theorem line_of_program [HostLike H] {line : String} {ts : List Token} (hlex : lex line = .ok ts)
    (hline : ¬ ∀ c ∈ line.toList, Text.isSpace c) (w : World H) :
    Request.ofLine line = .program (Text.trim line) ∧
    (∀ r v, LineEnds line w (.done r v) ↔
      ∃ a, Ends line w (.done a v) ∧ (a = .nil ∧ r = .nothing ∨ a ≠ .nil ∧ r = .value a)) ∧
    (∀ f v, Ends line w (.fault f v) →
      ∃ g, LineEnds line w (.fault g v) ∧ g.unplaced = f.unplaced ∧
        ('\n' ∉ line.toList → g = f)) ∧
    ∀ g v, LineEnds line w (.fault g v) →
      ∃ f, Ends line w (.fault f v) ∧ g.unplaced = f.unplaced ∧
        ('\n' ∉ line.toList → g = f) := by
  refine ⟨(alike_evalLine (H := H) hlex hline).1, fun r v => ?_, fun f v h => ?_, fun g v h => ?_⟩
  · simp only [← Reply.eq_ofValue_iff]
    constructor
    · intro h
      obtain ⟨p, hp, halike, -⟩ := exists_ends_of_lineEnds hlex hline h
      cases p <;> cases halike
      exact ⟨_, hp, rfl⟩
    · rintro ⟨a, ha, rfl⟩
      obtain ⟨o, ho, halike, -⟩ := exists_lineEnds_of_ends hlex hline ha
      cases halike
      exact ho
  · obtain ⟨o, ho, halike, hsame⟩ := exists_lineEnds_of_ends hlex hline h
    cases halike with
    | @fault g _ hg _ => exact ⟨g, ho, hg, fun hlines => by cases hsame hlines; rfl⟩
  · obtain ⟨p, hp, halike, hsame⟩ := exists_ends_of_lineEnds hlex hline h
    cases p with
    | fault f u =>
        cases halike with
        | fault hf _ => exact ⟨f, hp, hf, fun hlines => by cases hsame hlines; rfl⟩
    | done a u => cases halike
    | exhausted => cases halike

/-- A failing program below an empty line, and a string of white space, which is not
trimmed. -/
theorem line_of_program_below :
    let w : World := .initial (.ofFiles fun _ => none)
    Ends "\n-true;\t\n" w (.fault (.badOperand .minus .bool 2) w) ∧
    (∃ line, LineEnds "\n-true;\t\n" w (.fault (.badOperand .minus .bool line) w)) ∧
    LineEnds " \"\u00a0\";\t" w (.done (.value (.str "\u00a0")) w) := by
  intro w
  let minus : Token := ⟨.minus, 2, none⟩
  let yes : Token := ⟨.kwTrue, 2, none⟩
  let space : Token := ⟨.string, 1, some (.str "\u00a0")⟩
  have hbelow : lex "\n-true;\t\n" = .ok [minus, yes, ⟨.semi, 2, none⟩, ⟨.eof, 3, none⟩] := by
    decide +kernel
  have hspace : lex " \"\u00a0\";\t" = .ok [space, ⟨.semi, 1, none⟩, ⟨.eof, 1, none⟩] := by
    decide +kernel
  have hfault : Ends "\n-true;\t\n" w (.fault (.badOperand .minus .bool 2) w) := by
    have htree : Tree.ofText "\n-true;\t\n" = .ok (.unary minus (.leaf yes)) :=
      Tree.ofText_eq_ok_iff.2 ⟨_, hbelow, rfl⟩
    exact ⟨by simp, 2, by rw [run_of_ofText htree]; rfl⟩
  have hvalue : Ends " \"\u00a0\";\t" w (.done (.str "\u00a0") w) := by
    have htree : Tree.ofText " \"\u00a0\";\t" = .ok (.leaf space) :=
      Tree.ofText_eq_ok_iff.2 ⟨_, hspace, rfl⟩
    exact ⟨by simp, 1, by rw [run_of_ofText htree]; rfl⟩
  have hminus : ¬ ∀ c ∈ "\n-true;\t\n".toList, Text.isSpace c := fun h =>
    absurd (h '-' (by decide)) (by decide)
  have hquote : ¬ ∀ c ∈ " \"\u00a0\";\t".toList, Text.isSpace c := fun h =>
    absurd (h '"' (by decide)) (by decide)
  obtain ⟨-, -, hfails, -⟩ := line_of_program hbelow hminus w
  obtain ⟨-, hgives, -⟩ := line_of_program hspace hquote w
  obtain ⟨g, hg, hunplaced, -⟩ := hfails _ _ hfault
  refine ⟨hfault, ?_, (hgives _ _).2 ⟨_, hvalue, .inr ⟨by simp, rfl⟩⟩⟩
  cases g <;> cases hunplaced
  exact ⟨_, hg⟩

end Session

end Quill
