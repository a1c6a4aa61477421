import Mathlib.Data.List.Forall2
import Quill.Proofs.Lexeme

/-!
Cutting a text into lexemes, and the tokens that come of it.

`Cut cs ls rest` says that `cs`, read from its start, is cut into the lexemes
`ls` with blanks anywhere between them, and that `rest` has not been looked at
yet. Every lexeme is the longest at its place and fits, so a cut has no choice in
it: lexing goes along with it (`lexFrom_of_cut`), and it goes on until nothing is
left or the text fails at the head of what is left (`exists_cut`). Between them
these settle `lex`: it succeeds on the texts that can be cut to their end, and
fails at the place where the cut of the others stops.
-/

namespace Quill

open Lexeme

inductive Cut : List Char → List (List Char) → List Char → Prop
  | stop (rest : List Char) : Cut rest [] rest
  | blank {c : Char} {cs rest : List Char} {ls : List (List Char)} (hc : isBlank c)
      (hcut : Cut cs ls rest) : Cut (c :: cs) ls rest
  | lexeme {l cs rest : List Char} {ls : List (List Char)} (hl : IsLongest l (l ++ cs))
      (hfits : Fits l) (hcut : Cut cs ls rest) : Cut (l ++ cs) (l :: ls) rest

/-- The token is the one that the lexeme makes, whatever its line. -/
def Makes (l : List Char) (t : Token) : Prop := Denotes l t.kind t.value

/-! ### One step of lexing -/

theorem lineEnds_append (cs ds : List Char) : lineEnds (cs ++ ds) = lineEnds cs + lineEnds ds :=
  List.count_append

theorem lexFrom_blank {c : Char} (hc : isBlank c) (line : Nat) (cs : List Char) :
    lexFrom line (c :: cs) = lexFrom (line + lineEnds [c]) cs := by
  rw [lexFrom, if_pos hc]

theorem lexFrom_of_read_ok {c : Char} {cs rest : List Char} {l : Lexeme} (hc : isBlank c = false)
    (h : read c cs = .ok (l, rest)) (line : Nat) :
    lexFrom line (c :: cs) =
      (lexFrom (line + lineEnds l.text) rest).map (⟨l.kind, line, l.value⟩ :: ·) := by
  rw [lexFrom, if_neg (by simp [hc])]
  split
  · next hread =>
      rw [h] at hread
      cases hread
  · next l' rest' hread =>
      rw [h] at hread
      cases hread
      cases lexFrom (line + lineEnds l.text) rest <;> rfl

theorem lexFrom_of_read_error {c : Char} {cs text : List Char} {reason : LexReason}
    (hc : isBlank c = false) (h : read c cs = .error (text, reason)) (line : Nat) :
    lexFrom line (c :: cs) = .error (.lex (String.ofList text) reason line) := by
  rw [lexFrom, if_neg (by simp [hc])]
  split
  · next hread =>
      rw [h] at hread
      cases hread
      rfl
  · next hread =>
      rw [h] at hread
      cases hread

/-- A lexeme that is the longest at its place and fits is the next token. -/
theorem lexFrom_of_isLongest {l cs : List Char} (hl : IsLongest l (l ++ cs)) (hfits : Fits l)
    (line : Nat) :
    ∃ t, t.line = line ∧ Makes l t ∧
      lexFrom line (l ++ cs) = (lexFrom (line + lineEnds l) cs).map (t :: ·) := by
  obtain _ | ⟨c, l⟩ := l
  · exact absurd rfl hl.1.ne_nil
  rw [List.cons_append] at hl ⊢
  have hblank : isBlank c = false := (hl.1.class_of_head hl.2.1).1
  -- Reading cannot fail here, and what it takes is a longest lexeme, so it is `l`.
  cases hread : read c (l ++ cs) with
  | error e => exact absurd hfits ((failure_of_read hblank hread).not_fits hl)
  | ok r =>
      obtain ⟨x, rest⟩ := r
      have htext : x.text = c :: l := (isLongest_of_read hblank hread).unique hl
      have hrest : rest = cs := by
        have happend := text_append_of_read hread
        rw [htext, List.cons_append] at happend
        exact List.append_cancel_left (List.cons.inj happend).2
      subst hrest
      refine ⟨⟨x.kind, line, x.value⟩, rfl, ?_, ?_⟩
      · have hd := denotes_of_read hblank hread
        rwa [htext] at hd
      · rw [lexFrom_of_read_ok hblank hread, htext]

theorem lexFrom_of_failure {cs text : List Char} {reason : LexReason}
    (h : Failure cs text reason) (line : Nat) :
    lexFrom line cs = .error (.lex (String.ofList text) reason line) := by
  obtain ⟨c, cs, rfl, hblank⟩ := h.head
  cases hread : read c cs with
  | ok r =>
      obtain ⟨x, rest⟩ := r
      exact absurd (denotes_of_read hblank hread).fits (h.not_fits (isLongest_of_read hblank hread))
  | error e =>
      obtain ⟨text', reason'⟩ := e
      obtain ⟨rfl, rfl⟩ := h.unique (failure_of_read hblank hread)
      exact lexFrom_of_read_error hblank hread line

/-! ### A whole run -/

/-- Lexing goes along with a cut: it makes the tokens of the lexemes that were
cut off and carries on with the rest, on the line that the rest starts on. -/
theorem lexFrom_of_cut {cs rest : List Char} {ls : List (List Char)} (h : Cut cs ls rest)
    (line : Nat) :
    ∃ ts restLine, List.Forall₂ Makes ls ts ∧
      restLine + lineEnds rest = line + lineEnds cs ∧
      lexFrom line cs = (lexFrom restLine rest).map (ts ++ ·) := by
  induction h generalizing line with
  | stop rest =>
      refine ⟨[], line, .nil, rfl, ?_⟩
      cases lexFrom line rest <;> rfl
  | @blank c cs rest ls hc hcut ih =>
      obtain ⟨ts, restLine, hmakes, hline, hlex⟩ := ih (line + lineEnds [c])
      refine ⟨ts, restLine, hmakes, ?_, ?_⟩
      · rw [hline, Nat.add_assoc, ← lineEnds_append]
        rfl
      · rw [lexFrom_blank hc, hlex]
  | @lexeme l cs rest ls hl hfits hcut ih =>
      obtain ⟨t, -, ht, hstep⟩ := lexFrom_of_isLongest hl hfits line
      obtain ⟨ts, restLine, hmakes, hline, hlex⟩ := ih (line + lineEnds l)
      refine ⟨t :: ts, restLine, .cons ht hmakes, ?_, ?_⟩
      · rw [hline, lineEnds_append]
        omega
      · rw [hstep, hlex]
        cases lexFrom restLine rest <;> rfl

/-- Every text can be cut up to its end or up to a place where it fails. -/
theorem exists_cut (cs : List Char) :
    ∃ ls rest, Cut cs ls rest ∧ (rest = [] ∨ ∃ text reason, Failure rest text reason) := by
  induction hn : cs.length using Nat.strongRecOn generalizing cs with
  | ind n ih =>
      obtain _ | ⟨c, cs⟩ := cs
      · exact ⟨[], [], .stop [], .inl rfl⟩
      cases hblank : isBlank c with
      | true =>
          obtain ⟨ls, rest, hcut, hend⟩ := ih cs.length (by simp [← hn]) cs rfl
          exact ⟨ls, rest, .blank hblank hcut, hend⟩
      | false =>
          cases hread : read c cs with
          | error e => exact ⟨[], _, .stop _, .inr ⟨_, _, failure_of_read hblank hread⟩⟩
          | ok r =>
              obtain ⟨x, rest'⟩ := r
              have hlt := length_lt_of_read hread
              obtain ⟨ls, rest, hcut, hend⟩ := ih rest'.length (by omega) rest' rfl
              have hlongest := isLongest_of_read hblank hread
              have hfits := (denotes_of_read hblank hread).fits
              rw [← text_append_of_read hread] at hlongest ⊢
              exact ⟨x.text :: ls, rest, .lexeme hlongest hfits hcut, hend⟩

theorem mark_ne_eof : ∀ p ∈ marks, p.2 ≠ .eof := by
  decide

theorem kind_ne_eof_of_makes {l : List Char} {t : Token} (h : Makes l t) : t.kind ≠ .eof := by
  obtain ⟨k, line, v⟩ := t
  cases h with
  | keyword hk =>
      rintro rfl
      simp [Kind.isKeyword] at hk
  | name _ _ => exact Kind.noConfusion
  | numeral _ _ => exact Kind.noConfusion
  | quoted _ => exact Kind.noConfusion
  | mark hl => exact mark_ne_eof _ hl

/-- Every token of a cut is made by one of its lexemes. -/
theorem exists_makes {ls : List (List Char)} {ts : List Token} (h : List.Forall₂ Makes ls ts)
    {t : Token} (ht : t ∈ ts) : ∃ l, Makes l t := by
  induction h with
  | nil => cases ht
  | @cons l u ls ts hmakes _ ih =>
      rcases List.mem_cons.1 ht with rfl | hmem
      · exact ⟨l, hmakes⟩
      · exact ih hmem

/-- On a text that can be cut to its end, lexing makes the tokens of the cut. -/
theorem lex_of_cut {source : String} {ls : List (List Char)} (h : Cut source.toList ls []) :
    ∃ ts line, List.Forall₂ Makes ls ts ∧ lex source = .ok (ts ++ [⟨.eof, line, none⟩]) := by
  obtain ⟨ts, line, hmakes, -, hlex⟩ := lexFrom_of_cut h 1
  refine ⟨ts, line, hmakes, ?_⟩
  rw [lex, hlex, lexFrom]
  rfl

/-- On a text whose cut stops at a failure, lexing reports that failure. -/
theorem lex_of_failure {source : String} {ls : List (List Char)} {rest text : List Char}
    {reason : LexReason} (h : Cut source.toList ls rest) (hfail : Failure rest text reason) :
    ∃ line, line + lineEnds rest = 1 + lineEnds source.toList ∧
      lex source = .error (.lex (String.ofList text) reason line) := by
  obtain ⟨ts, line, -, hline, hlex⟩ := lexFrom_of_cut h 1
  refine ⟨line, hline, ?_⟩
  rw [lex, hlex, lexFrom_of_failure hfail]
  rfl

/-- Lexing is cutting by the longest match. It succeeds exactly on the texts that
can be cut to their end into lexemes and blanks, and gives a token for each
lexeme and then the only end mark. On any other text it fails at the place where
the cut cannot go on, with the cause and the piece of text to blame there, and
the line is that of the place. -/
theorem lex_longest_match (source : String) :
    ((∃ ts, lex source = .ok ts) ↔ ∃ ls, Cut source.toList ls []) ∧
    (∀ ts ls, lex source = .ok ts → Cut source.toList ls [] →
      ∃ us line, ts = us ++ [⟨.eof, line, none⟩] ∧ List.Forall₂ Makes ls us ∧
        ∀ t ∈ us, t.kind ≠ .eof) ∧
    (∀ f, lex source = .error f ↔
      ∃ ls rest text reason line, Cut source.toList ls rest ∧ Failure rest text reason ∧
        line + lineEnds rest = 1 + lineEnds source.toList ∧
        f = .lex (String.ofList text) reason line) := by
  obtain ⟨ls, rest, hcut, hend⟩ := exists_cut source.toList
  refine ⟨⟨?_, ?_⟩, ?_, ?_⟩
  · rintro ⟨ts, hok⟩
    rcases hend with rfl | ⟨text, reason, hfail⟩
    · exact ⟨ls, hcut⟩
    · obtain ⟨line, -, herr⟩ := lex_of_failure hcut hfail
      rw [hok] at herr
      cases herr
  · rintro ⟨ls, hcut⟩
    obtain ⟨ts, line, -, hok⟩ := lex_of_cut hcut
    exact ⟨_, hok⟩
  · intro ts ls hok hcut
    obtain ⟨us, line, hmakes, hlex⟩ := lex_of_cut hcut
    rw [hok] at hlex
    cases hlex
    refine ⟨us, line, rfl, hmakes, fun t ht => ?_⟩
    obtain ⟨l, hl⟩ := exists_makes hmakes ht
    exact kind_ne_eof_of_makes hl
  · intro f
    constructor
    · intro herr
      rcases hend with rfl | ⟨text, reason, hfail⟩
      · obtain ⟨ts, line, -, hok⟩ := lex_of_cut hcut
        rw [hok] at herr
        cases herr
      · obtain ⟨line, hline, hlex⟩ := lex_of_failure hcut hfail
        rw [herr] at hlex
        cases hlex
        exact ⟨ls, rest, text, reason, line, hcut, hfail, hline, rfl⟩
    · -- The line is settled by what is left, so the fault is the same one.
      rintro ⟨ls, rest, text, reason, line, hcut, hfail, hline, rfl⟩
      obtain ⟨line', hline', hlex⟩ := lex_of_failure hcut hfail
      have hsame : line' = line := by omega
      rw [hlex, hsame]

theorem lex_longest_match_letter :
    ∃ ls us line, Cut "letx<=\"=\"".toList ls [] ∧ List.Forall₂ Makes ls us ∧
      us ++ [⟨.eof, line, none⟩] =
        [⟨.ident, 1, some (.str "letx")⟩, ⟨.lessEqual, 1, none⟩, ⟨.string, 1, some (.str "=")⟩,
          ⟨.eof, 1, none⟩] := by
  have hlex : lex "letx<=\"=\"" =
      .ok [⟨.ident, 1, some (.str "letx")⟩, ⟨.lessEqual, 1, none⟩, ⟨.string, 1, some (.str "=")⟩,
        ⟨.eof, 1, none⟩] := by decide +kernel
  obtain ⟨hiff, htokens, -⟩ := lex_longest_match "letx<=\"=\""
  obtain ⟨ls, hcut⟩ := hiff.1 ⟨_, hlex⟩
  obtain ⟨us, line, hts, hmakes, -⟩ := htokens _ ls hlex hcut
  exact ⟨ls, us, line, hcut, hmakes, hts.symm⟩

end Quill
