import Quill.Proofs.Concatenation

/-!
Tokens written out. The text of a token is a lexeme that makes the token, provided that
its payload suits its kind. A blank behind a lexeme ends it, whatever it is and whatever
comes next, so the texts of any tokens are read back as these tokens when there are blanks
between them. That some pairs need none, as a name and a bracket do not, is left aside here.
-/

namespace Quill

open Lexeme

/-- A token that a text can hold: its payload suits its kind, and it is neither a line end,
which is counted and not kept, nor the end mark. -/
structure Token.Lexical (t : Token) : Prop where
  wellFormed : t.WellFormed
  ne_newline : t.kind ≠ .newline
  ne_eof : t.kind ≠ .eof

theorem Kind.isLiteral_or {k : Kind} (hnewline : k ≠ .newline) (heof : k ≠ .eof) :
    k.isLiteral ∨ k.isKeyword ∨ k ∈ marks.map Prod.snd := by
  revert hnewline heof
  cases k <;> decide

theorem Token.Lexical.makes_text {t : Token} (h : t.Lexical) : Makes t.text.toList t := by
  have hplain (hcarries : t.kind.carries = false)
      (hkind : t.kind.isKeyword ∨ t.kind ∈ marks.map Prod.snd) : Makes t.text.toList t := by
    have hvalue := (Token.wellFormed_iff hcarries).1 h.wellFormed
    rw [Token.text, hvalue]
    exact makes_kind_text hkind hvalue
  rcases Kind.isLiteral_or h.ne_newline h.ne_eof with hliteral | hkey | hmark
  · exact Quill.makes_text hliteral h.wellFormed
  · exact hplain (Kind.carries_of_isKeyword hkey) (.inl hkey)
  · exact hplain (Kind.carries_of_mem_marks _ hmark) (.inr hmark)

/-- The texts of tokens one behind the other, each with a gap before it. -/
def spaced (parts : List (String × Token)) : String :=
  String.join (parts.map fun p => p.1 ++ p.2.text)

@[simp] theorem toList_spaced_nil : (spaced []).toList = [] := rfl

@[simp] theorem toList_spaced_cons (p : String × Token) (parts : List (String × Token)) :
    (spaced (p :: parts)).toList = p.1.toList ++ (p.2.text.toList ++ (spaced parts).toList) := by
  simp [spaced, String.toList_join]

/-- Behind a token there is nothing or a blank, if the gaps are blank and not empty. -/
theorem isBlank_of_head_spaced {parts : List (String × Token)}
    (hgaps : ∀ p ∈ parts, ∀ c ∈ p.1.toList, isBlank c) (hsep : ∀ p ∈ parts, p.1 ≠ "") :
    ∀ d ∈ (spaced parts).toList.head?, isBlank d := by
  cases parts with
  | nil => simp
  | cons p parts =>
      have hp : p.1.toList ≠ [] := by simpa using hsep p (by simp)
      intro d hd
      rw [toList_spaced_cons, List.head?_append_of_ne_nil _ hp] at hd
      exact hgaps p (by simp) d (List.mem_of_mem_head? hd)

theorem reads_spaced {parts : List (String × Token)} (hts : ∀ p ∈ parts, p.2.Lexical)
    (hgaps : ∀ p ∈ parts, ∀ c ∈ p.1.toList, isBlank c) (hsep : ∀ p ∈ parts.tail, p.1 ≠ "") :
    Reads (spaced parts).toList (parts.map Prod.snd) [] := by
  induction parts with
  | nil => exact .refl []
  | cons p parts ih =>
      obtain ⟨ht, hts⟩ := List.forall_mem_cons.1 hts
      obtain ⟨hgap, hgaps⟩ := List.forall_mem_cons.1 hgaps
      have hrest := ih hts hgaps fun q hq => hsep q (List.mem_of_mem_tail hq)
      have hnext : ∀ d ∈ (spaced parts).toList.head?, grows p.2.kind d = false :=
        fun d hd => grows_of_isBlank (isBlank_of_head_spaced hgaps hsep d hd) _
      rw [toList_spaced_cons]
      exact (Reads.token ht.makes_text hnext hrest).blanks hgap

/-- Tokens are read back from their texts. Whatever tokens a text can hold, their texts with
blanks between them are cut into tokens of the same kinds with the same payloads, in the
same order, and then the end mark. -/
theorem lex_spaced {parts : List (String × Token)} (hts : ∀ p ∈ parts, p.2.Lexical)
    (hgaps : ∀ p ∈ parts, ∀ c ∈ p.1.toList, isBlank c) (hsep : ∀ p ∈ parts.tail, p.1 ≠ "") :
    ∃ us line, us.map Token.unplaced = parts.map (fun p => p.2.unplaced) ∧
      lex (spaced parts) = .ok (us ++ [⟨.eof, line, none⟩]) := by
  obtain ⟨ls, hcut, hmakes⟩ := reads_spaced hts hgaps hsep
  obtain ⟨us, line, hmakes', hlex⟩ := lex_of_cut hcut
  refine ⟨us, line, ?_, hlex⟩
  rw [Reads.unplaced_eq_of_makes hmakes hmakes', List.map_map]
  rfl

/-- A string that holds a line end and a keyword, a keyword, a name that begins like it, two
marks that would be one without the blank, and the largest number. -/
theorem lex_spaced_keyword :
    let parts : List (String × Token) := [("", ⟨.string, 0, some (.str "if\n")⟩),
      ("\r\n", ⟨.kwIf, 0, none⟩), (" ", ⟨.ident, 0, some (.str "iff")⟩), ("\t", ⟨.less, 0, none⟩),
      (" ", ⟨.assign, 0, none⟩), ("\n ", ⟨.int, 0, some (.int Int64.maxValue)⟩)]
    (∀ p ∈ parts, p.2.Lexical) ∧ (∀ p ∈ parts, ∀ c ∈ p.1.toList, isBlank c) ∧
    (∀ p ∈ parts.tail, p.1 ≠ "") ∧
    ∃ us line, us.map Token.unplaced = parts.map (fun p => p.2.unplaced) ∧
      lex "\"if\n\"\r\nif iff\t< =\n 9223372036854775807" = .ok (us ++ [⟨.eof, line, none⟩]) := by
  intro parts
  have hkey : ∀ k : Kind, k.isKeyword → k.text ≠ "iff" := by
    intro k
    cases k <;> decide
  have hts : ∀ p ∈ parts, p.2.Lexical := by
    simp only [parts, List.forall_mem_cons]
    exact ⟨⟨⟨_, rfl, by decide⟩, by decide, by decide⟩, ⟨rfl, by decide, by decide⟩,
      ⟨⟨_, rfl, by decide, hkey⟩, by decide, by decide⟩, ⟨rfl, by decide, by decide⟩,
      ⟨rfl, by decide, by decide⟩, ⟨⟨_, rfl, by decide⟩, by decide, by decide⟩, by simp⟩
  have hgaps : ∀ p ∈ parts, ∀ c ∈ p.1.toList, isBlank c := by simp [parts, isBlank]
  have hsep : ∀ p ∈ parts.tail, p.1 ≠ "" := by simp [parts]
  exact ⟨hts, hgaps, hsep, lex_spaced hts hgaps hsep⟩

end Quill
