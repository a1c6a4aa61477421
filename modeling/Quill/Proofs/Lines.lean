import Quill.Proofs.Tokenization

/-!
Lines are lines of the text. The line of a token, or of a failure to make one, is
found by counting while the text is taken in; here it is tied to the text itself,
as one more than the number of line ends in all that stands before the place.

`CutAt` is `Cut` with the places written down. It carries along the text that has
been passed, and so each lexeme comes out with everything before it. Lexing counts
nothing else: along such a cut the line it has reached is always the one that the
passed text ends on (`lexFrom_of_cutAt`). That a string may itself hold line ends
needs no word of its own, for they count for what comes behind the string and not
for its opening quote.
-/

namespace Quill

open Lexeme

/-- The line on which a text goes on after what is before. The first line is `1`. -/
def lineAfter (before : List Char) : Nat := 1 + lineEnds before

theorem lineAfter_append (before cs : List Char) :
    lineAfter (before ++ cs) = lineAfter before + lineEnds cs := by
  rw [lineAfter, lineAfter, lineEnds_append, Nat.add_assoc]

theorem lineAfter_le_of_prefix {before before' : List Char} (h : before <+: before') :
    lineAfter before ≤ lineAfter before' := by
  obtain ⟨cs, rfl⟩ := h
  rw [lineAfter_append]
  exact Nat.le_add_right _ _

/-- A lexeme in a text, and all of the text before it. -/
structure Site where
  before : List Char
  lexeme : List Char

/-- The token is the one that the lexeme makes, on the line on which it starts. -/
def Site.Holds (p : Site) (t : Token) : Prop :=
  Makes p.lexeme t ∧ t.line = lineAfter p.before

/-- A cut of a text that comes behind another, with the places of its lexemes. -/
inductive CutAt : List Char → List Char → List Site → List Char → Prop
  | stop (before rest : List Char) : CutAt before rest [] rest
  | blank {before : List Char} {c : Char} {cs rest : List Char} {sites : List Site}
      (hc : isBlank c) (hcut : CutAt (before ++ [c]) cs sites rest) :
      CutAt before (c :: cs) sites rest
  | lexeme {before l cs rest : List Char} {sites : List Site} (hl : IsLongest l (l ++ cs))
      (hfits : Fits l) (hcut : CutAt (before ++ l) cs sites rest) :
      CutAt before (l ++ cs) (⟨before, l⟩ :: sites) rest

/-- Every cut has its places. -/
theorem Cut.exists_sites {cs rest : List Char} {ls : List (List Char)} (h : Cut cs ls rest)
    (before : List Char) :
    ∃ sites, CutAt before cs sites rest ∧ sites.map Site.lexeme = ls := by
  induction h generalizing before with
  | stop rest => exact ⟨[], .stop before rest, rfl⟩
  | @blank c cs rest ls hc _ ih =>
      obtain ⟨sites, hcut, hls⟩ := ih (before ++ [c])
      exact ⟨sites, .blank hc hcut, hls⟩
  | @lexeme l cs rest ls hl hfits _ ih =>
      obtain ⟨sites, hcut, rfl⟩ := ih (before ++ l)
      exact ⟨⟨before, l⟩ :: sites, .lexeme hl hfits hcut, rfl⟩

namespace CutAt

variable {before cs rest : List Char} {sites : List Site}

/-- A place is where it is said to be: behind what has been passed, and in the text. -/
theorem prefix_of_mem (h : CutAt before cs sites rest) :
    ∀ p ∈ sites, before <+: p.before ∧ p.before ++ p.lexeme <+: before ++ cs := by
  induction h with
  | stop before rest => simp
  | @blank before c cs rest sites _ _ ih =>
      intro p hp
      obtain ⟨hpassed, htext⟩ := ih p hp
      rw [List.append_assoc] at htext
      exact ⟨(List.prefix_append _ _).trans hpassed, htext⟩
  | @lexeme before l cs rest sites _ _ _ ih =>
      intro p hp
      rcases List.mem_cons.1 hp with rfl | hp
      · rw [← List.append_assoc]
        exact ⟨List.prefix_rfl, List.prefix_append _ _⟩
      · obtain ⟨hpassed, htext⟩ := ih p hp
        rw [List.append_assoc] at htext
        exact ⟨(List.prefix_append _ _).trans hpassed, htext⟩

/-- The places come in the order of the text. -/
theorem pairwise (h : CutAt before cs sites rest) :
    sites.Pairwise fun p q => p.before <+: q.before := by
  induction h with
  | stop before rest => exact .nil
  | blank _ _ ih => exact ih
  | lexeme _ _ hcut ih =>
      refine .cons (fun q hq => ?_) ih
      exact (List.prefix_append _ _).trans (hcut.prefix_of_mem q hq).1

end CutAt

/-- Lexing goes along with a cut, from the line that the passed text ends on to the
line that the text ends on which has been passed when the cut is done. -/
theorem lexFrom_of_cutAt {before cs rest : List Char} {sites : List Site}
    (h : CutAt before cs sites rest) :
    ∃ passed ts, before ++ cs = passed ++ rest ∧ List.Forall₂ Site.Holds sites ts ∧
      lexFrom (lineAfter before) cs = (lexFrom (lineAfter passed) rest).map (ts ++ ·) := by
  induction h with
  | stop before rest =>
      refine ⟨before, [], rfl, .nil, ?_⟩
      cases lexFrom (lineAfter before) rest <;> rfl
  | @blank before c cs rest sites hc _ ih =>
      obtain ⟨passed, ts, hpassed, hholds, hlex⟩ := ih
      refine ⟨passed, ts, ?_, hholds, ?_⟩
      · rw [← hpassed, List.append_assoc]
        rfl
      · rw [lexFrom_blank hc, ← lineAfter_append, hlex]
  | @lexeme before l cs rest sites hl hfits _ ih =>
      obtain ⟨passed, ts, hpassed, hholds, hlex⟩ := ih
      obtain ⟨t, hline, hmakes, hstep⟩ := lexFrom_of_isLongest hl hfits (lineAfter before)
      refine ⟨passed, t :: ts, ?_, .cons ⟨hmakes, hline⟩ hholds, ?_⟩
      · rw [← hpassed, List.append_assoc]
      · rw [hstep, ← lineAfter_append, hlex]
        cases lexFrom (lineAfter passed) rest <;> rfl

theorem map_line_of_holds {sites : List Site} {ts : List Token}
    (h : List.Forall₂ Site.Holds sites ts) :
    ts.map Token.line = (sites.map Site.before).map lineAfter := by
  induction h with
  | nil => rfl
  | cons hp _ ih => rw [List.map_cons, hp.2, ih, List.map_cons, List.map_cons]

/-- A token behind another is on no line above it. -/
theorem pairwise_line_of_prefix {ts : List Token} {befores : List (List Char)}
    (hlines : ts.map Token.line = befores.map lineAfter) (h : befores.Pairwise (· <+: ·)) :
    ts.Pairwise fun t u => t.line ≤ u.line := by
  have hpairwise : (befores.map lineAfter).Pairwise (· ≤ ·) :=
    List.pairwise_map.2 (h.imp lineAfter_le_of_prefix)
  rw [← hlines] at hpairwise
  exact List.pairwise_map.1 hpairwise

theorem Lexeme.Failure.text_prefix {cs text : List Char} {reason : LexReason}
    (h : Failure cs text reason) : text <+: cs := by
  cases h with
  | unrecognized _ _ _ => exact ⟨_, rfl⟩
  | outOfRange hl _ _ => exact hl.2.1
  | unterminated _ => exact List.prefix_rfl

/-- On a text that can be cut to its end, every token is on the line on which its
lexeme starts, and the end mark on the last line of the text. -/
theorem lex_of_cutAt {source : String} {sites : List Site}
    (h : CutAt [] source.toList sites []) :
    ∃ us, List.Forall₂ Site.Holds sites us ∧
      lex source = .ok (us ++ [⟨.eof, lineAfter source.toList, none⟩]) := by
  obtain ⟨passed, us, hpassed, hholds, hlex⟩ := lexFrom_of_cutAt h
  rw [List.nil_append, List.append_nil] at hpassed
  subst hpassed
  refine ⟨us, hholds, ?_⟩
  change lexFrom (lineAfter []) source.toList = _
  rw [hlex, lexFrom]
  rfl

/-- On a text whose cut stops at a failure, the failure is on the line on which the
cut has stopped. -/
theorem lex_of_cutAt_failure {source : String} {sites : List Site} {rest text : List Char}
    {reason : LexReason} (h : CutAt [] source.toList sites rest)
    (hfail : Failure rest text reason) :
    ∃ before, source.toList = before ++ rest ∧
      lex source = .error (.lex (String.ofList text) reason (lineAfter before)) := by
  obtain ⟨passed, us, hpassed, -, hlex⟩ := lexFrom_of_cutAt h
  refine ⟨passed, hpassed, ?_⟩
  change lexFrom (lineAfter []) source.toList = _
  rw [hlex, lexFrom_of_failure hfail]
  rfl

/-- Line numbers are true lines of the text. Where lexing succeeds, the text is cut
into lexemes, and the line of each token is one more than the number of line ends
before the first character of its lexeme; the lines do not decrease, and that of the
end mark counts all line ends of the text. Where lexing fails, it fails where the cut
stops, and the line of the fault is one more than the number of line ends before the
first character of the piece of text that it shows. -/
theorem lex_lines (source : String) :
    (∀ ts, lex source = .ok ts →
      ∃ sites us, CutAt [] source.toList sites [] ∧
        (∀ p ∈ sites, p.before ++ p.lexeme <+: source.toList) ∧
        List.Forall₂ Site.Holds sites us ∧
        ts = us ++ [⟨.eof, lineAfter source.toList, none⟩] ∧
        ts.Pairwise fun t u => t.line ≤ u.line) ∧
    (∀ f, lex source = .error f →
      ∃ sites before text after reason, CutAt [] source.toList sites (text ++ after) ∧
        source.toList = before ++ (text ++ after) ∧ Failure (text ++ after) text reason ∧
        f = .lex (String.ofList text) reason (lineAfter before)) := by
  obtain ⟨ls, rest, hcut, hend⟩ := exists_cut source.toList
  obtain ⟨sites, hsites, -⟩ := hcut.exists_sites []
  rcases hend with rfl | ⟨text, reason, hfail⟩
  · obtain ⟨us, hholds, hlex⟩ := lex_of_cutAt hsites
    have hin : ∀ p ∈ sites, p.before ++ p.lexeme <+: source.toList :=
      fun p hp => (hsites.prefix_of_mem p hp).2
    refine ⟨fun ts hok => ?_, fun f herr => ?_⟩
    · rw [hlex] at hok
      cases hok
      refine ⟨sites, us, hsites, hin, hholds, rfl, ?_⟩
      -- The end mark has the whole text before it, so it takes its turn with the others.
      have hbefores : (sites.map Site.before ++ [source.toList]).Pairwise (· <+: ·) := by
        refine List.pairwise_append.2 ⟨List.pairwise_map.2 hsites.pairwise, by simp, ?_⟩
        intro before hbefore _ hsource
        obtain ⟨p, hp, rfl⟩ := List.mem_map.1 hbefore
        rw [List.mem_singleton.1 hsource]
        exact (List.prefix_append _ _).trans (hin p hp)
      refine pairwise_line_of_prefix ?_ hbefores
      rw [List.map_append, List.map_append, map_line_of_holds hholds]
      rfl
    · rw [hlex] at herr
      cases herr
  · obtain ⟨before, hbefore, hlex⟩ := lex_of_cutAt_failure hsites hfail
    obtain ⟨after, rfl⟩ := hfail.text_prefix
    refine ⟨fun ts hok => ?_, fun f herr => ?_⟩
    · rw [hlex] at hok
      cases hok
    · rw [hlex] at herr
      cases herr
      exact ⟨sites, before, text, after, reason, hsites, hbefore, hfail, rfl⟩

/-- A string that reaches over the end of a line, with a token behind it, and one
with a character behind it that is no token. -/
theorem lex_lines_string :
    (∃ sites us line, CutAt [] "x\n\"a\nb\" y\r\n".toList sites [] ∧
      List.Forall₂ Site.Holds sites us ∧ us ++ [⟨.eof, line, none⟩] =
        [⟨.ident, 1, some (.str "x")⟩, ⟨.string, 2, some (.str "a\nb")⟩,
          ⟨.ident, 3, some (.str "y")⟩, ⟨.eof, 4, none⟩]) ∧
    ∃ sites before text after reason, CutAt [] "\"a\nb\"\n #".toList sites (text ++ after) ∧
      "\"a\nb\"\n #".toList = before ++ (text ++ after) ∧
      Fault.lex "#" .unrecognized 3 = .lex (String.ofList text) reason (lineAfter before) := by
  have hok : lex "x\n\"a\nb\" y\r\n" = .ok [⟨.ident, 1, some (.str "x")⟩,
      ⟨.string, 2, some (.str "a\nb")⟩, ⟨.ident, 3, some (.str "y")⟩, ⟨.eof, 4, none⟩] := by
    decide +kernel
  have herr : lex "\"a\nb\"\n #" = .error (.lex "#" .unrecognized 3) := by
    decide +kernel
  obtain ⟨sites, us, hcut, -, hholds, hts, -⟩ := (lex_lines _).1 _ hok
  obtain ⟨sites', before, text, after, reason, hcut', hbefore, -, hfault⟩ :=
    (lex_lines _).2 _ herr
  exact ⟨⟨sites, us, _, hcut, hholds, hts.symm⟩, sites', before, text, after, reason, hcut',
    hbefore, hfault⟩

end Quill
