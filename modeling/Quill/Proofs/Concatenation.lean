import Quill.Proofs.RoundTrip

/-!
Texts put one behind the other. Nothing that comes before or after a text has a
say in how it is cut, provided the text behind starts with a character that makes
no lexeme longer: a lexeme that has ended does not go on there, and what follows
is cut as if it stood alone, on later lines. Blanks are such characters, and so is
the quote. Behind a blank this goes for failures too: the text behind it fails as it
would alone, and where it would, but for the lines above it.
-/

namespace Quill

namespace Lexeme

theorem dropWhile_head {p : Char → Bool} {cs : List Char} :
    ∀ d ∈ (cs.dropWhile p).head?, p d = false := by
  intro d hd
  have hnot := List.head?_dropWhile_not p cs
  rw [Option.mem_def.1 hd] at hnot
  exact hnot

theorem grows_word {cs rest : List Char} {l : Lexeme} (h : word cs = .ok (l, rest)) :
    ∀ d ∈ rest.head?, grows l.kind d = false := by
  unfold word at h
  dsimp only at h
  split at h
  · next k hk =>
      cases h
      have hkey : k.isKeyword := ((Kind.keyword?_eq_some_iff _ _).1 hk).1
      intro d hd
      simpa [grows, hkey] using dropWhile_head d hd
  · cases h
    intro d hd
    simpa [grows] using dropWhile_head d hd

theorem grows_number {cs rest : List Char} {l : Lexeme} (h : number cs = .ok (l, rest)) :
    ∀ d ∈ rest.head?, grows l.kind d = false := by
  unfold number at h
  dsimp only at h
  split at h
  · cases h
    intro d hd
    simpa [grows, Kind.isKeyword] using dropWhile_head d hd
  · cases h

theorem grows_mark {cs rest : List Char} {k : Kind} (h : mark? cs = some (k, rest)) :
    ∀ d ∈ rest.head?, grows k d = false := by
  intro d hd
  obtain ⟨tail, rfl⟩ := List.head?_eq_some_iff.1 hd
  -- Where a longer mark begins alike, the shorter one is taken only if `=` does not follow.
  unfold mark? at h
  split at h <;> cases h <;> simp_all [grows, Kind.isKeyword]

/-- Reading ends where the lexeme cannot grow. -/
theorem grows_of_read {c : Char} {cs rest : List Char} {l : Lexeme}
    (h : read c cs = .ok (l, rest)) : ∀ d ∈ rest.head?, grows l.kind d = false := by
  unfold read at h
  split at h
  · exact grows_word h
  split at h
  · exact grows_number h
  split at h
  · unfold string at h
    dsimp only at h
    split at h
    · cases h
    · cases h
      intro d _
      rfl
  split at h
  · next hmark =>
      cases h
      exact grows_mark hmark
  · cases h

theorem grows_of_isBlank {d : Char} (hd : isBlank d) (k : Kind) : grows k d = false := by
  simp only [isBlank, Bool.or_eq_true, decide_eq_true_eq] at hd
  rcases hd with ((rfl | rfl) | rfl) | rfl <;> cases k <;> decide

theorem grows_quote (k : Kind) : grows k '"' = false := by
  cases k <;> decide

/-- A text that starts with a character which makes no lexeme longer does not matter
to the lexeme before it. -/
theorem read_append_of_grows {c : Char} {cs rest : List Char} {l : Lexeme}
    (hc : isBlank c = false) (h : read c cs = .ok (l, rest)) {d : Char}
    (hd : ∀ k, grows k d = false) (ds : List Char) :
    read c (cs ++ d :: ds) = .ok (l, rest ++ d :: ds) := by
  obtain ⟨text, kind, value⟩ := l
  have hdenotes := denotes_of_read hc h
  have happend := text_append_of_read h
  obtain _ | ⟨c', text⟩ := text
  · exact absurd rfl (text_ne_nil_of_read h)
  rw [List.cons_append] at happend
  obtain ⟨rfl, rfl⟩ := List.cons.inj happend
  rw [List.append_assoc]
  refine read_append hdenotes ?_
  cases rest with
  | nil =>
      rintro e ⟨⟩
      exact hd kind
  | cons r rest => exact grows_of_read h

end Lexeme

open Lexeme

/-! ### Lexing that succeeds

Every step of it takes a blank or a lexeme off the text, and the last one adds the
end mark. -/

/-- The tokens of a text that starts on the given line. -/
inductive Lexed : Nat → List Char → List Token → Prop
  | nil (line : Nat) : Lexed line [] [⟨.eof, line, none⟩]
  | blank {line : Nat} {c : Char} {cs : List Char} {ts : List Token} (hc : isBlank c)
      (h : Lexed (line + lineEnds [c]) cs ts) : Lexed line (c :: cs) ts
  | lexeme {line : Nat} {c : Char} {cs rest : List Char} {l : Lexeme} {ts : List Token}
      (hc : isBlank c = false) (hread : read c cs = .ok (l, rest))
      (h : Lexed (line + lineEnds l.text) rest ts) :
      Lexed line (c :: cs) (⟨l.kind, line, l.value⟩ :: ts)

theorem lexed_of_lexFrom {line : Nat} {cs : List Char} {ts : List Token}
    (h : lexFrom line cs = .ok ts) : Lexed line cs ts := by
  induction hn : cs.length using Nat.strongRecOn generalizing cs line ts with
  | ind n ih =>
      obtain _ | ⟨c, cs⟩ := cs
      · rw [lexFrom] at h
        cases h
        exact .nil line
      cases hblank : isBlank c with
      | true =>
          rw [lexFrom_blank hblank] at h
          exact .blank hblank (ih cs.length (by simp [← hn]) h rfl)
      | false =>
          cases hread : read c cs with
          | error e =>
              rw [lexFrom_of_read_error hblank hread] at h
              cases h
          | ok r =>
              obtain ⟨l, rest⟩ := r
              have hlt := length_lt_of_read hread
              rw [lexFrom_of_read_ok hblank hread] at h
              cases hrest : lexFrom (line + lineEnds l.text) rest with
              | error f =>
                  rw [hrest] at h
                  cases h
              | ok us =>
                  rw [hrest] at h
                  cases h
                  exact .lexeme hblank hread (ih rest.length (by omega) hrest rfl)

theorem Lexed.lexFrom_eq {line : Nat} {cs : List Char} {ts : List Token}
    (h : Lexed line cs ts) : lexFrom line cs = .ok ts := by
  induction h with
  | nil line => rw [lexFrom]
  | blank hc _ ih => rw [lexFrom_blank hc, ih]
  | lexeme hc hread _ ih =>
      rw [lexFrom_of_read_ok hc hread, ih]
      rfl

/-- A token some lines further down. -/
def Token.lower (d : Nat) (t : Token) : Token := { t with line := t.line + d }

/-- Text that starts further down has the same tokens further down. -/
theorem Lexed.lower {line : Nat} {cs : List Char} {ts : List Token} (h : Lexed line cs ts)
    (d : Nat) : Lexed (line + d) cs (ts.map (Token.lower d)) := by
  induction h with
  | nil line => exact .nil (line + d)
  | blank hc _ ih =>
      rw [Nat.add_right_comm] at ih
      exact .blank hc ih
  | lexeme hc hread _ ih =>
      rw [Nat.add_right_comm] at ih
      exact .lexeme hc hread ih

/-- A text and another that makes none of its lexemes longer have the tokens of the
one, less its end mark, and then those of the other. -/
theorem Lexed.append {line : Nat} {cs : List Char} {ts : List Token} (h : Lexed line cs ts)
    {d : Char} (hd : ∀ k, grows k d = false) (ds : List Char) :
    ∃ us, ts = us ++ [⟨.eof, line + lineEnds cs, none⟩] ∧
      lexFrom line (cs ++ d :: ds) =
        (lexFrom (line + lineEnds cs) (d :: ds)).map (us ++ ·) := by
  induction h with
  | nil line =>
      refine ⟨[], rfl, ?_⟩
      change lexFrom line (d :: ds) = (lexFrom line (d :: ds)).map _
      cases lexFrom line (d :: ds) <;> rfl
  | @blank line c cs ts hc _ ih =>
      have hline : line + lineEnds [c] + lineEnds cs = line + lineEnds (c :: cs) := by
        rw [Nat.add_assoc, ← lineEnds_append, List.singleton_append]
      rw [hline] at ih
      rwa [List.cons_append, lexFrom_blank hc]
  | @lexeme line c cs rest l ts hc hread _ ih =>
      have hline : line + lineEnds l.text + lineEnds rest = line + lineEnds (c :: cs) := by
        rw [Nat.add_assoc, ← lineEnds_append, text_append_of_read hread]
      rw [hline] at ih
      obtain ⟨us, rfl, hlex⟩ := ih
      refine ⟨⟨l.kind, line, l.value⟩ :: us, rfl, ?_⟩
      rw [List.cons_append, lexFrom_of_read_ok hc (read_append_of_grows hc hread hd ds), hlex]
      cases lexFrom (line + lineEnds (c :: cs)) (d :: ds) <;> rfl

theorem Lexed.append_blank {line : Nat} {cs : List Char} {ts : List Token}
    (h : Lexed line cs ts) {d : Char} (hd : isBlank d) (ds : List Char) :
    ∃ us, ts = us ++ [⟨.eof, line + lineEnds cs, none⟩] ∧
      lexFrom line (cs ++ d :: ds) =
        (lexFrom (line + lineEnds cs + lineEnds [d]) ds).map (us ++ ·) := by
  rw [← lexFrom_blank hd]
  exact h.append (grows_of_isBlank hd) ds

/-! ### Lexing that may fail -/

/-- Text that starts further down fails in the same way further down: the place of
the failure is told by what is left of the text there. -/
theorem exists_lexFrom_error {line : Nat} {cs : List Char} {f : Fault}
    (h : lexFrom line cs = .error f) :
    ∃ text reason place, f = .lex text reason place ∧
      ∀ d, lexFrom (line + d) cs = .error (.lex text reason (place + d)) := by
  obtain ⟨ls, rest, hcut, hend⟩ := exists_cut cs
  rcases hend with rfl | ⟨text, reason, hfail⟩
  · obtain ⟨ts, last, -, -, hlex⟩ := lexFrom_of_cut hcut line
    rw [h, lexFrom] at hlex
    cases hlex
  · obtain ⟨ts, place, -, hplace, hlex⟩ := lexFrom_of_cut hcut line
    rw [h, lexFrom_of_failure hfail] at hlex
    refine ⟨String.ofList text, reason, place, by cases hlex; rfl, fun d => ?_⟩
    obtain ⟨us, place', -, hplace', hlex'⟩ := lexFrom_of_cut hcut (line + d)
    have hsame : place' = place + d := by omega
    rw [hlex', lexFrom_of_failure hfail, hsame]
    rfl

/-- Lexing is done piece by piece where there are blanks. A text that has tokens, a
blank and any text behind it have the tokens of the first text, less its end mark,
and then those of the second, lowered by the line ends before it; or they fail as the
second text does, lowered by as much. -/
theorem lex_append_blank {a : String} {ts : List Token} (h : lex a = .ok ts) {c : Char}
    (hc : isBlank c) (b : String) :
    ∃ us last, ts = us ++ [last] ∧ last.kind = .eof ∧
      (∀ vs, lex b = .ok vs →
        lex (a.push c ++ b) = .ok (us ++ vs.map (Token.lower (lineEnds (a.push c).toList)))) ∧
      ∀ f, lex b = .error f →
        ∃ text reason line, f = .lex text reason line ∧
          lex (a.push c ++ b) =
            .error (.lex text reason (line + lineEnds (a.push c).toList)) := by
  obtain ⟨us, rfl, hlex⟩ := (lexed_of_lexFrom h).append_blank hc b.toList
  have htext : (a.push c ++ b).toList = a.toList ++ c :: b.toList := by simp
  have hline : 1 + lineEnds a.toList + lineEnds [c] = 1 + lineEnds (a.push c).toList := by
    rw [String.toList_push, lineEnds_append, Nat.add_assoc]
  rw [hline, ← htext] at hlex
  refine ⟨us, _, rfl, rfl, fun vs hb => ?_, fun f hb => ?_⟩
  · rw [lex, hlex, ((lexed_of_lexFrom hb).lower _).lexFrom_eq]
    rfl
  · obtain ⟨text, reason, line, rfl, hlower⟩ := exists_lexFrom_error hb
    refine ⟨text, reason, line, rfl, ?_⟩
    rw [lex, hlex, hlower]
    rfl

/-- The mark in front of the blank would be another one with what comes behind, and
the string before it holds a line end. -/
theorem lex_append_blank_less :
    let p : Token := ⟨.string, 1, some (.str "p\n")⟩
    let less : Token := ⟨.less, 2, none⟩
    lex "\"p\n\"<" = .ok [p, less, ⟨.eof, 2, none⟩] ∧ isBlank '\n' ∧
    lex ("\"p\n\"<".push '\n' ++ "=let") =
      .ok [p, less, ⟨.assign, 3, none⟩, ⟨.kwLet, 3, none⟩, ⟨.eof, 3, none⟩] ∧
    lex ("\"p\n\"<".push '\n' ++ "= #") = .error (.lex "#" .unrecognized 3) := by
  intro p less
  have hless : lex "\"p\n\"<" = .ok [p, less, ⟨.eof, 2, none⟩] := by decide +kernel
  have hlet : lex "=let" = .ok [⟨.assign, 1, none⟩, ⟨.kwLet, 1, none⟩, ⟨.eof, 1, none⟩] := by
    decide +kernel
  have hhash : lex "= #" = .error (.lex "#" .unrecognized 1) := by decide +kernel
  obtain ⟨us, last, hus, -, hok, -⟩ := lex_append_blank hless (c := '\n') rfl "=let"
  obtain ⟨-, -, -, -, -, herr⟩ := lex_append_blank hless (c := '\n') rfl "= #"
  have hus : [p, less] ++ [⟨.eof, 2, none⟩] = us ++ [last] := hus
  obtain ⟨rfl, -⟩ := List.append_inj' hus rfl
  obtain ⟨text, reason, line, hf, hfail⟩ := herr _ hhash
  cases hf
  exact ⟨hless, rfl, hok _ hlet, hfail⟩

end Quill
