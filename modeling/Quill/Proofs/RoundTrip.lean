import Quill.Proofs.TokenMap
import Quill.Proofs.WellFormed

/-!
Printing and parsing undo each other. The text of a well-formed tree is cut into
tokens and the tokens are derived by the grammar, both along the tree: for each
form of tree there are tokens that its text reads as and that its rule takes.

Two things keep the text apart. A lexeme must not run into what follows it, and
everywhere in printed text a blank, a bracket or a semicolon follows, except
behind a unary operator; there the text of an operand follows, and that does not
begin with `=`. And an operand must be of the tightest level, which is what the
parentheses around operations are for.
-/

namespace Quill

open Lexeme Grammar

/-- A token of which only the kind matters. -/
def Token.bare (k : Kind) : Token := ⟨k, 0, none⟩

/-- Reading `cs` up to `rest` gives these tokens, whatever their lines. -/
def Reads (cs : List Char) (ts : List Token) (rest : List Char) : Prop :=
  ∃ ls, Cut cs ls rest ∧ List.Forall₂ Makes ls ts

theorem Cut.trans {cs ds rest : List Char} {ls ls' : List (List Char)} (h : Cut cs ls ds)
    (h' : Cut ds ls' rest) : Cut cs (ls ++ ls') rest := by
  induction h with
  | stop _ => exact h'
  | blank hc _ ih => exact .blank hc (ih h')
  | lexeme hl hfits _ ih => exact .lexeme hl hfits (ih h')

namespace Reads

theorem refl (cs : List Char) : Reads cs [] cs := ⟨[], .stop cs, .nil⟩

theorem trans {cs ds rest : List Char} {ts us : List Token} (h : Reads cs ts ds)
    (h' : Reads ds us rest) : Reads cs (ts ++ us) rest := by
  obtain ⟨ls, hcut, hmakes⟩ := h
  obtain ⟨ls', hcut', hmakes'⟩ := h'
  exact ⟨ls ++ ls', hcut.trans hcut', List.rel_append hmakes hmakes'⟩

theorem blank {c : Char} {cs rest : List Char} {ts : List Token} (hc : isBlank c)
    (h : Reads cs ts rest) : Reads (c :: cs) ts rest := by
  obtain ⟨ls, hcut, hmakes⟩ := h
  exact ⟨ls, .blank hc hcut, hmakes⟩

theorem blanks {gap cs rest : List Char} {ts : List Token} (hgap : ∀ c ∈ gap, isBlank c)
    (h : Reads cs ts rest) : Reads (gap ++ cs) ts rest := by
  induction gap with
  | nil => exact h
  | cons c gap ih =>
      obtain ⟨hc, hgap⟩ := List.forall_mem_cons.1 hgap
      exact (ih hgap).blank hc

theorem indent {cs rest : List Char} {ts : List Token} (n : Nat) (h : Reads cs ts rest) :
    Reads (List.replicate n ' ' ++ cs) ts rest := by
  refine h.blanks fun c hc => ?_
  rw [(List.mem_replicate.1 hc).2]
  rfl

/-- A lexeme that what follows does not prolong is read first. -/
theorem token {l cs rest : List Char} {t : Token} {ts : List Token} (ht : Makes l t)
    (hnext : ∀ d ∈ cs.head?, grows t.kind d = false) (h : Reads cs ts rest) :
    Reads (l ++ cs) (t :: ts) rest := by
  obtain ⟨ls, hcut, hmakes⟩ := h
  obtain _ | ⟨c, l⟩ := l
  · exact absurd rfl (Denotes.isLexeme ht).ne_nil
  have hblank := ((Denotes.isLexeme ht).class_of_head (List.prefix_refl (c :: l))).1
  have hread := read_append ht hnext
  exact ⟨_, .lexeme (isLongest_of_read hblank hread) (Denotes.fits ht) hcut, .cons ht hmakes⟩

theorem unplaced_eq_of_makes {ls : List (List Char)} {ts us : List Token}
    (h : List.Forall₂ Makes ls ts) (h' : List.Forall₂ Makes ls us) :
    us.map Token.unplaced = ts.map Token.unplaced := by
  induction h generalizing us with
  | nil =>
      cases h'
      rfl
  | @cons l t ls ts ht _ ih =>
      cases h' with
      | @cons _ u _ us hu hus =>
          obtain ⟨hkind, hvalue⟩ := Denotes.unique hu ht
          rw [List.map_cons, List.map_cons, ih hus]
          simp only [Token.unplaced, hkind, hvalue]

/-- Lexing goes the way of reading; only lines may differ. -/
theorem exists_lex {source : String} {ts : List Token} (h : Reads source.toList ts []) :
    ∃ us, us.map Token.unplaced = (ts ++ [Token.bare .eof]).map Token.unplaced ∧
      lex source = .ok us := by
  obtain ⟨ls, hcut, hmakes⟩ := h
  obtain ⟨us, line, hmakes', hlex⟩ := lex_of_cut hcut
  refine ⟨_, ?_, hlex⟩
  rw [List.map_append, List.map_append, unplaced_eq_of_makes hmakes hmakes']
  rfl

end Reads

/-! ### The texts of tokens -/

/-- The characters that stand behind the tokens of an expression. -/
def closers : List Char := [' ', ')', ';']

theorem grows_of_mem_closers (k : Kind) {d : Char} (hd : d ∈ closers) : grows k d = false := by
  simp only [closers, List.mem_cons, List.not_mem_nil, or_false] at hd
  rcases hd with rfl | rfl | rfl <;> cases k <;> decide

/-- The text ends here, or one of the closing characters follows. -/
def Closes (rest : List Char) : Prop := ∀ d ∈ rest.head?, d ∈ closers

theorem Closes.grows {rest : List Char} (h : Closes rest) (k : Kind) :
    ∀ d ∈ rest.head?, grows k d = false :=
  fun d hd => grows_of_mem_closers k (h d hd)

theorem closes_cons {c : Char} (hc : c ∈ closers) (rest : List Char) : Closes (c :: rest) := by
  rintro d hd
  cases hd
  exact hc

/-- Reserved words and marks are spelled the way their kinds are. -/
theorem makes_kind_text {t : Token} (hkind : t.kind.isKeyword ∨ t.kind ∈ marks.map Prod.snd)
    (hvalue : t.value = none) : Makes t.kind.text.toList t := by
  unfold Makes
  rw [hvalue]
  rcases hkind with hkey | hmark
  · exact .keyword hkey
  · obtain ⟨⟨l, k⟩, hmem, hk⟩ := List.mem_map.1 hmark
    rw [← hk, text_of_mem_marks _ hmem]
    exact .mark hmem

theorem numeral_text {n : Int64} (hn : 0 ≤ n.toInt) :
    Denotes (toString n.toInt).toList .int (some (.int n)) := by
  obtain ⟨m, hm⟩ := Int.eq_ofNat_of_zero_le hn
  have htext : (toString n.toInt).toList = Nat.toDigits 10 m := by
    rw [hm]
    exact Nat.toList_repr
  rw [htext]
  refine .numeral ⟨Nat.toDigits_ne_nil, fun c hc => ?_⟩ ?_
  · exact Nat.isDigit_of_mem_toDigits (by decide) (by decide) hc
  · rw [hm, numeralValue, Nat.ofDigitChars_ten_toDigits]

/-- A well-formed literal is read from its text. -/
theorem makes_text {t : Token} (hkind : t.kind.isLiteral) (ht : t.WellFormed) :
    Makes t.text.toList t := by
  obtain ⟨k, line, v⟩ := t
  cases k with
  | kwTrue =>
      obtain rfl : v = none := ht
      exact makes_kind_text (.inl rfl) rfl
  | kwFalse =>
      obtain rfl : v = none := ht
      exact makes_kind_text (.inl rfl) rfl
  | int =>
      obtain ⟨n, rfl, hn⟩ := ht
      exact numeral_text hn
  | string =>
      obtain ⟨s, rfl, hs⟩ := ht
      have hquoted := Denotes.quoted hs
      rw [String.ofList_toList] at hquoted
      simpa [Makes, Token.text] using hquoted
  | ident =>
      obtain ⟨s, rfl, hword, hkey⟩ := ht
      have hname := Denotes.name hword (by rwa [String.ofList_toList])
      rw [String.ofList_toList] at hname
      exact hname
  | _ => cases hkind

/-- The marks that are not operators. -/
def punctuation : List (Char × Kind) :=
  [('(', .lparen), (')', .rparen), ('\x7b', .lbrace), ('\x7d', .rbrace), (';', .semi)]

section

variable {cs rest : List Char} {ts : List Token}

/-- Brackets and semicolons are lexemes whatever follows. -/
theorem reads_punctuation {c : Char} {k : Kind} (hc : (c, k) ∈ punctuation)
    (h : Reads cs ts rest) : Reads (c :: cs) (.bare k :: ts) rest := by
  have hmarks : ∀ p ∈ punctuation, ([p.1], p.2) ∈ marks := by decide
  have hgrows : ∀ p ∈ punctuation, ∀ d, grows p.2 d = false := by
    simp [punctuation, grows, Kind.isKeyword]
  have hmakes : Makes [c] (.bare k) := .mark (hmarks _ hc)
  exact .token hmakes (fun d _ => hgrows _ hc d) h

theorem reads_keyword {k : Kind} (hk : k.isKeyword) (h : Reads cs ts rest) :
    Reads (k.text.toList ++ ' ' :: cs) (.bare k :: ts) rest :=
  .token (.keyword hk) ((closes_cons (by decide) cs).grows k) (h.blank rfl)

theorem reads_assign (h : Reads cs ts rest) :
    Reads (' ' :: '=' :: ' ' :: cs) (.bare .assign :: ts) rest := by
  refine Reads.blank rfl ?_
  have hmark : Makes ['='] (.bare .assign) := .mark (by decide)
  exact .token hmark ((closes_cons (by decide) cs).grows _) (h.blank rfl)

end

/-! ### Expressions -/

/-- Where nothing that follows gets in the way, the text is read as tokens that
make up the expression at the level. -/
def ReadsAt (level : Level) (cs : List Char) (e : Tree) : Prop :=
  ∀ rest, Closes rest → ∃ w, Expression level w e ∧ Reads (cs ++ rest) w rest

theorem ReadsAt.to_equality {level : Level} {cs : List Char} {e : Tree} (h : ReadsAt level cs e) :
    ReadsAt .equality cs e := by
  intro rest hrest
  obtain ⟨w, he, hreads⟩ := h rest hrest
  exact ⟨w, he.to_equality, hreads⟩

theorem readsAt_leaf {token : Token} (hkind : token.kind.isLiteral) (ht : token.WellFormed) :
    ReadsAt .primary token.text.toList (.leaf token) := by
  intro rest hrest
  refine ⟨[token], .literal ?_, ?_⟩
  · revert hkind
    cases token.kind <;> decide
  · exact .token (makes_text hkind ht) (hrest.grows _) (.refl _)

/-- Parentheses make an operand of any expression. -/
theorem readsAt_group {cs : List Char} {e : Tree} (h : ReadsAt .equality cs e) :
    ReadsAt .primary ('(' :: cs ++ [')']) e := by
  intro rest hrest
  obtain ⟨w, he, hreads⟩ := h (')' :: rest) (closes_cons (by decide) rest)
  refine ⟨.bare .lparen :: w ++ [.bare .rparen], .group rfl he rfl, ?_⟩
  have hclose : Reads (')' :: rest) [.bare .rparen] rest :=
    reads_punctuation (by decide) (.refl rest)
  have hopen : Reads ('(' :: (cs ++ ')' :: rest)) (.bare .lparen :: (w ++ [.bare .rparen])) rest :=
    reads_punctuation (by decide) (hreads.trans hclose)
  simpa using hopen

theorem readsAt_sign {op : Token} {cs : List Char} {e : Tree} (hop : op.kind ∈ Parser.unaryKinds)
    (hvalue : op.value = none) (hhead : ∃ c ∈ cs.head?, c ≠ '=') (h : ReadsAt .primary cs e) :
    ReadsAt .unary (op.kind.text.toList ++ cs) (.unary op e) := by
  intro rest hrest
  obtain ⟨w, he, hreads⟩ := h rest hrest
  refine ⟨op :: w, .sign hop (.single he), ?_⟩
  rw [List.append_assoc]
  refine .token (makes_kind_text (.inr (unaryKinds_subset_marks hop)) hvalue) ?_ hreads
  -- Of the three operators only `!` could run into what follows.
  obtain ⟨d, hd, hne⟩ := hhead
  obtain ⟨cs', rfl⟩ := List.head?_eq_some_iff.1 hd
  intro d' hd'
  cases hd'
  revert hop
  cases op.kind <;> simp [Parser.unaryKinds, grows, Kind.isKeyword, hne]

theorem exists_level_of_mem_binaryKinds : ∀ k ∈ Tree.binaryKinds,
    ∃ level ∈ [Level.multiplicative, .additive, .comparison, .equality],
      k ∈ level.operators := by
  decide

theorem readsAt_chain {op : Token} {cs ds : List Char} {a b : Tree}
    (hop : op.kind ∈ Tree.binaryKinds) (hvalue : op.value = none) (ha : ReadsAt .primary cs a)
    (hb : ReadsAt .primary ds b) :
    ReadsAt .equality (cs ++ ' ' :: op.kind.text.toList ++ ' ' :: ds) (.binary op a b) := by
  intro rest hrest
  obtain ⟨w, hw, hwreads⟩ := hb rest hrest
  have hright : Reads (op.kind.text.toList ++ ' ' :: (ds ++ rest)) (op :: w) rest :=
    .token (makes_kind_text (.inr (binaryKinds_subset_marks hop)) hvalue)
      ((closes_cons (by decide) _).grows _) (hwreads.blank rfl)
  obtain ⟨v, hv, hvreads⟩ :=
    ha (' ' :: (op.kind.text.toList ++ ' ' :: (ds ++ rest))) (closes_cons (by decide) _)
  refine ⟨v ++ op :: w, ?_, by simpa using hvreads.trans (hright.blank rfl)⟩
  -- Whichever level the operator is of, both operands are tight enough for it.
  obtain ⟨level, -, hlevel⟩ := exists_level_of_mem_binaryKinds _ hop
  exact (Expression.chain (hv.of_primary level) hlevel (hw.of_primary level.tighter)).to_equality

theorem head_ne_of_isLiteral {l : List Char} {k : Kind} {v : Option Payload} (h : Denotes l k v)
    (hkind : k.isLiteral) : ∃ c ∈ l.head?, c ≠ '=' := by
  have hword : ∀ {l : List Char}, IsWord l → ∃ c ∈ l.head?, c ≠ '=' := by
    intro l hl
    obtain _ | ⟨c, l⟩ := l
    · exact hl.elim
    refine ⟨c, rfl, ?_⟩
    rintro rfl
    exact absurd hl.1 (by decide)
  cases h with
  | keyword hk => exact hword (isWord_of_isKeyword hk)
  | name hl _ => exact hword hl
  | @numeral l _ hl _ =>
      obtain _ | ⟨c, l⟩ := l
      · exact absurd rfl hl.1
      refine ⟨c, rfl, ?_⟩
      rintro rfl
      exact absurd (hl.2 '=' (by simp)) (by decide)
  | quoted _ => exact ⟨'"', rfl, by decide⟩
  | mark hl =>
      revert hkind
      have hmarks : ∀ p ∈ marks, p.2.isLiteral = false := by decide
      rw [hmarks _ hl]
      exact fun h => absurd h (by decide)

namespace Tree

/-- What is written for an operand does not begin with `=`. -/
theorem head_operand {e : Tree} (h : e.WellFormedExpression) :
    ∃ c ∈ (wrap e (write .inline e)).toList.head?, c ≠ '=' := by
  cases h with
  | leaf hkind ht => exact head_ne_of_isLiteral (makes_text hkind ht) hkind
  | unary _ _ _ => exact ⟨'(', by simp [wrap, isOperation], by decide⟩
  | binary _ _ _ _ => exact ⟨'(', by simp [wrap, isOperation], by decide⟩

theorem readsAt_operand {e : Tree} (h : e.WellFormedExpression)
    (hreads : ReadsAt .equality (write .inline e).toList e) :
    ReadsAt .primary (wrap e (write .inline e)).toList e := by
  cases h with
  | leaf hkind ht => exact readsAt_leaf hkind ht
  | unary _ _ _ => simpa [wrap, isOperation] using readsAt_group hreads
  | binary _ _ _ _ => simpa [wrap, isOperation] using readsAt_group hreads

/-- A well-formed expression is read from its text. -/
theorem readsAt_write {e : Tree} (h : e.WellFormedExpression) :
    ReadsAt .equality (write .inline e).toList e := by
  induction h with
  | @leaf token hkind ht => exact (readsAt_leaf hkind ht).to_equality
  | @unary op operand hop hvalue hoperand ih =>
      have hreads := readsAt_sign hop hvalue (head_operand hoperand) (readsAt_operand hoperand ih)
      simpa [write, Place.writeExpression] using hreads.to_equality
  | @binary op left right hop hvalue hleft hright ihl ihr =>
      have hreads := readsAt_chain hop hvalue (readsAt_operand hleft ihl)
        (readsAt_operand hright ihr)
      simpa [write, Place.writeExpression] using hreads

/-! ### Statements

Statements end with their line, so it does not matter what follows them. -/

@[simp] theorem toList_writeLine (d : Nat) (s : String) :
    ((Place.line d).writeLine s).toList = List.replicate (4 * d) ' ' ++ (s.toList ++ ['\n']) := by
  simp [Place.writeLine, Place.indent, Place.depth]

@[simp] theorem depth_line (d : Nat) : (Place.line d).depth = d := rfl

/-- The text is read as tokens that make up the statement or block. -/
def ReadsAs (form : Form) (cs : List Char) (t : Tree) : Prop :=
  ∀ rest, ∃ w, Statement form w t ∧ Reads (cs ++ rest) w rest

theorem ReadsAs.indent {form : Form} {cs : List Char} {t : Tree} (n : Nat)
    (h : ReadsAs form cs t) : ReadsAs form (List.replicate n ' ' ++ cs) t := by
  intro rest
  obtain ⟨w, ht, hreads⟩ := h rest
  exact ⟨w, ht, by simpa using hreads.indent n⟩

/-- An expression, its semicolon and the end of the line. -/
theorem reads_closed {e : Tree} (h : e.WellFormedExpression) (rest : List Char) :
    ∃ w, Expression .equality w e ∧
      Reads ((write .inline e).toList ++ ';' :: '\n' :: rest) (w ++ [.bare .semi]) rest := by
  obtain ⟨w, he, hreads⟩ := readsAt_write h (';' :: '\n' :: rest) (closes_cons (by decide) _)
  have hsemi : Reads (';' :: '\n' :: rest) [.bare .semi] rest :=
    reads_punctuation (by decide) ((Reads.refl rest).blank rfl)
  exact ⟨w, he, hreads.trans hsemi⟩

theorem readsAs_expression {e : Tree} (h : e.WellFormedExpression) :
    ReadsAs .statement ((write .inline e).toList ++ [';', '\n']) e := by
  intro rest
  obtain ⟨w, he, hreads⟩ := reads_closed h rest
  exact ⟨w ++ [.bare .semi], .expression he rfl, by simpa using hreads⟩

theorem readsAs_declare {name : Token} (hkind : name.kind = .ident) (hname : name.WellFormed) :
    ReadsAs .statement (Kind.kwLet.text.toList ++ ' ' :: (name.text.toList ++ [';', '\n']))
      (.declare name) := by
  intro rest
  have hsemi : Reads (';' :: '\n' :: rest) [.bare .semi] rest :=
    reads_punctuation (by decide) ((Reads.refl rest).blank rfl)
  have hrest := Reads.token (makes_text (by rw [hkind]; rfl) hname)
    ((closes_cons (by decide) _).grows _) hsemi
  refine ⟨[.bare .kwLet, name, .bare .semi], .declare rfl hkind rfl, ?_⟩
  have hkey : Kind.isKeyword .kwLet := rfl
  simpa using reads_keyword hkey hrest

/-- A name, `=`, an expression and a semicolon. -/
theorem reads_binding {name : Token} {e : Tree} (hkind : name.kind = .ident)
    (hname : name.WellFormed) (h : e.WellFormedExpression) (rest : List Char) :
    ∃ w, Expression .equality w e ∧
      Reads (name.text.toList ++ ' ' :: '=' :: ' ' :: ((write .inline e).toList ++
        ';' :: '\n' :: rest)) (name :: .bare .assign :: w ++ [.bare .semi]) rest := by
  obtain ⟨w, he, hreads⟩ := reads_closed h rest
  refine ⟨w, he, ?_⟩
  exact Reads.token (makes_text (by rw [hkind]; rfl) hname) ((closes_cons (by decide) _).grows _)
    (reads_assign hreads)

theorem readsAs_define {name : Token} {init : Tree} (hkind : name.kind = .ident)
    (hname : name.WellFormed) (h : init.WellFormedExpression) :
    ReadsAs .statement (Kind.kwLet.text.toList ++ ' ' :: (name.text.toList ++
      ' ' :: '=' :: ' ' :: ((write .inline init).toList ++ [';', '\n']))) (.define name init) := by
  intro rest
  obtain ⟨w, he, hreads⟩ := reads_binding hkind hname h rest
  have hkey : Kind.isKeyword .kwLet := rfl
  exact ⟨_, .define rfl hkind rfl he rfl, by simpa using reads_keyword hkey hreads⟩

theorem readsAs_assign {name : Token} {value : Tree} (hkind : name.kind = .ident)
    (hname : name.WellFormed) (h : value.WellFormedExpression) :
    ReadsAs .statement (name.text.toList ++
      ' ' :: '=' :: ' ' :: ((write .inline value).toList ++ [';', '\n'])) (.assign name value) := by
  intro rest
  obtain ⟨w, he, hreads⟩ := reads_binding hkind hname h rest
  have htarget : Expression .primary [name] (.leaf name) := .literal (by simp [hkind])
  exact ⟨_, .assign htarget.to_equality hkind rfl he rfl, by simpa using hreads⟩

theorem readsAs_simple {k : Kind} {make : Tree → Tree} {arg : Tree} (hk : Simple k make)
    (h : arg.WellFormedExpression) :
    ReadsAs .statement (k.text.toList ++ ' ' :: ((write .inline arg).toList ++ [';', '\n']))
      (make arg) := by
  intro rest
  obtain ⟨w, he, hreads⟩ := reads_closed h rest
  have hkey : k.isKeyword := by cases hk <;> rfl
  exact ⟨_, .simple hk rfl he rfl, by simpa using reads_keyword hkey hreads⟩

theorem readsAs_conditional {k : Kind} {make : Tree → Tree → Tree} {cond body : Tree}
    {cs : List Char} (hk : Conditional k make) (h : cond.WellFormedExpression)
    (hbody : ReadsAs .block cs body) :
    ReadsAs .statement (k.text.toList ++ ' ' :: '(' :: ((write .inline cond).toList ++
      ')' :: '\n' :: cs)) (make cond body) := by
  intro rest
  obtain ⟨v, ht, hblock⟩ := hbody rest
  obtain ⟨w, he, hcond⟩ :=
    readsAt_write h (')' :: '\n' :: (cs ++ rest)) (closes_cons (by decide) _)
  have hkey : k.isKeyword := by cases hk <;> rfl
  have hclose : Reads (')' :: '\n' :: (cs ++ rest)) (.bare .rparen :: v) rest :=
    reads_punctuation (by decide) (hblock.blank rfl)
  have hopen : Reads ('(' :: ((write .inline cond).toList ++ ')' :: '\n' :: (cs ++ rest)))
      (.bare .lparen :: (w ++ .bare .rparen :: v)) rest :=
    reads_punctuation (by decide) (hcond.trans hclose)
  exact ⟨_, .conditional hk rfl rfl he rfl ht, by simpa using reads_keyword hkey hopen⟩

/-- Statements one below the other. -/
theorem reads_writeAll {body : List Tree} {d : Nat}
    (h : ∀ t ∈ body, ReadsAs .statement (write (.line d) t).toList t) (rest : List Char) :
    ∃ parts : List (List Token × Tree), parts.map Prod.snd = body ∧
      (∀ p ∈ parts, Statement .statement p.1 p.2) ∧
      Reads ((writeAll d body).toList ++ rest) (parts.flatMap Prod.fst) rest := by
  induction body with
  | nil => exact ⟨[], rfl, by simp, by simpa [writeAll] using Reads.refl rest⟩
  | cons t body ih =>
      obtain ⟨parts, hbody, hparts, hreads⟩ := ih fun u hu => h u (by simp [hu])
      obtain ⟨w, ht, hfirst⟩ := h t (by simp) ((writeAll d body).toList ++ rest)
      refine ⟨(w, t) :: parts, by simp [hbody], ?_, ?_⟩
      · intro p hp
        rcases List.mem_cons.1 hp with rfl | hp
        · exact ht
        · exact hparts p hp
      · simpa [writeAll] using hfirst.trans hreads

theorem readsAs_block {body : List Tree} {d : Nat}
    (h : ∀ t ∈ body, ReadsAs .statement (write (.line (d + 1)) t).toList t) :
    ReadsAs .block (write (.line d) (.scope body)).toList (.scope body) := by
  intro rest
  have hclose : Reads ('\x7d' :: '\n' :: rest) [.bare .rbrace] rest :=
    reads_punctuation (by decide) ((Reads.refl rest).blank rfl)
  obtain ⟨parts, rfl, hparts, hreads⟩ :=
    reads_writeAll h (List.replicate (4 * d) ' ' ++ '\x7d' :: '\n' :: rest)
  have hbody := hreads.trans (hclose.indent (4 * d))
  have hopen : Reads ('\x7b' :: '\n' :: ((writeAll (d + 1) (parts.map Prod.snd)).toList ++
      (List.replicate (4 * d) ' ' ++ '\x7d' :: '\n' :: rest)))
      (.bare .lbrace :: (parts.flatMap Prod.fst ++ [.bare .rbrace])) rest :=
    reads_punctuation (by decide) (hbody.blank rfl)
  refine ⟨_, .block (l := .bare .lbrace) (r := .bare .rbrace) rfl hparts rfl, ?_⟩
  simpa [write, Kind.text] using hopen.indent (4 * d)

/-- An expression on lines of its own is its text and a semicolon. -/
theorem write_line_of_expression {e : Tree} (h : e.WellFormedExpression) (d : Nat) :
    write (.line d) e = (Place.line d).writeLine (write .inline e ++ ";") := by
  cases h <;> simp only [write, Place.writeExpression]

/-- A well-formed statement is read from its lines. -/
theorem readsAs_write {t : Tree} (h : t.WellFormed) (d : Nat) :
    ReadsAs .statement (write (.line d) t).toList t := by
  induction h generalizing d with
  | scope _ ih =>
      intro rest
      obtain ⟨w, ht, hreads⟩ := readsAs_block (fun t ht => ih t ht (d + 1)) rest
      exact ⟨w, .ofBlock ht, hreads⟩
  | declare hkind hname =>
      simpa [write, Kind.text] using (readsAs_declare hkind hname).indent (4 * d)
  | define hkind hname hinit =>
      simpa [write, Kind.text] using (readsAs_define hkind hname hinit).indent (4 * d)
  | branch hcond _ ih =>
      have hbody := readsAs_block fun t ht => ih t ht (d + 1)
      simpa [write, Kind.text] using (readsAs_conditional .branch hcond hbody).indent (4 * d)
  | loop hcond _ ih =>
      have hbody := readsAs_block fun t ht => ih t ht (d + 1)
      simpa [write, Kind.text] using (readsAs_conditional .loop hcond hbody).indent (4 * d)
  | print harg =>
      simpa [write, Kind.text] using (readsAs_simple .print harg).indent (4 * d)
  | load harg =>
      simpa [write, Kind.text] using (readsAs_simple .load harg).indent (4 * d)
  | exec harg =>
      simpa [write, Kind.text] using (readsAs_simple .exec harg).indent (4 * d)
  | assign hkind hname hvalue =>
      simpa [write, Kind.text] using (readsAs_assign hkind hname hvalue).indent (4 * d)
  | expression he =>
      -- Only here does it matter that the place is a line and not within one.
      rw [write_line_of_expression he]
      simpa using (readsAs_expression he).indent (4 * d)

/-! ### Programs -/

/-- Statements written within a line take lines all the same. -/
theorem text_of_isStatement {t : Tree} (h : t.isStatement) : t.text = write (.line 0) t := by
  cases t with
  | binary _ _ _ => cases h
  | unary _ _ => cases h
  | leaf _ => cases h
  | _ => simp only [text, write, Place.writeLine, Place.indent, Place.depth]

theorem wellFormedExpression_of_not_isStatement {t : Tree} (h : t.WellFormed)
    (hs : t.isStatement = false) : t.WellFormedExpression := by
  cases h with
  | expression he => exact he
  | _ => cases hs

theorem derives_of_readsAs {cs : List Char} {t : Tree} (h : ReadsAs .statement cs t) :
    ∃ w, Derives (w ++ [.bare .eof]) t ∧ Reads cs w [] := by
  obtain ⟨w, ht, hreads⟩ := h []
  exact ⟨w, .one ht rfl, by simpa using hreads⟩

theorem derives_program {t : Tree} (h : t.WellFormed) :
    ∃ w, Derives (w ++ [.bare .eof]) t ∧ Reads t.program.toList w [] := by
  unfold program
  split
  · exact derives_of_readsAs (readsAs_write h 0)
  · next body hone =>
      have hbody : ∀ t ∈ body, t.WellFormed := by
        cases h with
        | scope hbody => exact hbody
        | expression he => cases he
      obtain ⟨parts, rfl, hparts, hreads⟩ :=
        reads_writeAll (fun t ht => readsAs_write (hbody t ht) 0) []
      -- A scope of one statement would be read back as that statement.
      have hlength : parts.length ≠ 1 := by
        intro hlen
        obtain ⟨p, rfl⟩ := List.length_eq_one_iff.1 hlen
        exact hone p.2 rfl
      exact ⟨_, .several hparts hlength rfl, by simpa using hreads⟩
  · exact derives_of_readsAs (readsAs_write h 0)

/-- Text that is read as a program is parsed as that program, lines apart. -/
theorem exists_ofText_of_reads {source : String} {w : List Token} {t : Tree}
    (hreads : Reads source.toList w []) (ht : Derives (w ++ [.bare .eof]) t) :
    ∃ u, ofText source = .ok u ∧ u.unplaced = t.unplaced := by
  obtain ⟨us, hus, hlex⟩ := hreads.exists_lex
  obtain ⟨u, hu, hunplaced⟩ := exists_ofTokens_of_unplaced hus (ofTokens_of_derives ht)
  exact ⟨u, ofText_eq_ok_iff.2 ⟨us, hlex, hu⟩, hunplaced⟩

/-- A tree is parsed from its text as a program, up to lines. -/
theorem exists_ofText_program {t : Tree} (h : t.WellFormed) :
    ∃ u, ofText t.program = .ok u ∧ u.unplaced = t.unplaced := by
  obtain ⟨w, hderives, hreads⟩ := derives_program h
  exact exists_ofText_of_reads hreads hderives

theorem exists_ofText_text {t : Tree} (h : t.WellFormed) (hs : t.isStatement) :
    ∃ u, ofText t.text = .ok u ∧ u.unplaced = t.unplaced := by
  obtain ⟨w, hderives, hreads⟩ := derives_of_readsAs (readsAs_write h 0)
  rw [← text_of_isStatement hs] at hreads
  exact exists_ofText_of_reads hreads hderives

theorem exists_ofText_text_semi {e : Tree} (h : e.WellFormedExpression) :
    ∃ u, ofText (e.text ++ ";") = .ok u ∧ u.unplaced = e.unplaced := by
  obtain ⟨w, he, hreads⟩ := readsAt_write h [';'] (closes_cons (by decide) [])
  have hsemi : Reads [';'] [.bare .semi] [] := reads_punctuation (by decide) (.refl [])
  have hall : Reads (e.text ++ ";").toList (w ++ [.bare .semi]) [] := by
    simpa [text] using hreads.trans hsemi
  exact exists_ofText_of_reads hall (.one (.expression he rfl) rfl)

/-- An expression alone is no program, for want of a semicolon. -/
theorem ofText_text_of_expression {e : Tree} (h : e.WellFormedExpression) :
    ∃ f, ofText e.text = .error f := by
  obtain ⟨w, he, hreads⟩ := readsAt_write h [] (by simp [Closes])
  rw [List.append_nil] at hreads
  obtain ⟨us, hus, hlex⟩ := hreads.exists_lex
  cases hparse : ofText e.text with
  | error f => exact ⟨f, rfl⟩
  | ok u =>
      obtain ⟨ts, hlex', hu⟩ := ofText_eq_ok_iff.1 hparse
      rw [text, hlex] at hlex'
      cases hlex'
      obtain ⟨u', hu', -⟩ := exists_ofTokens_of_unplaced hus.symm hu
      exact absurd (derives_of_ofTokens hu') he.not_derives

end Tree

/-- Printing and parsing undo each other. Parsing gives well-formed trees only,
and of a well-formed tree its text as a program is parsed as the same tree with
other lines. So is its text as a tree if it is a statement proper; the text of an
expression is not a program until a semicolon is added. -/
theorem ofText_print :
    (∀ source t, Tree.ofText source = .ok t → t.WellFormed) ∧
    ∀ t : Tree, t.WellFormed →
      (∃ u, Tree.ofText t.program = .ok u ∧ u.unplaced = t.unplaced) ∧
      (t.isStatement → ∃ u, Tree.ofText t.text = .ok u ∧ u.unplaced = t.unplaced) ∧
      (t.isStatement = false → (∃ f, Tree.ofText t.text = .error f) ∧
        ∃ u, Tree.ofText (t.text ++ ";") = .ok u ∧ u.unplaced = t.unplaced) := by
  refine ⟨fun source t => wellFormed_of_ofText, fun t ht => ⟨?_, ?_, ?_⟩⟩
  · exact Tree.exists_ofText_program ht
  · exact Tree.exists_ofText_text ht
  · intro hs
    have he := Tree.wellFormedExpression_of_not_isStatement ht hs
    exact ⟨Tree.ofText_text_of_expression he, Tree.exists_ofText_text_semi he⟩

theorem ofText_print_loop :
    (Tree.loop (.unary ⟨.bang, 7, none⟩ (.leaf ⟨.ident, 3, some (.str "x")⟩))
      (.scope [])).WellFormed ∧
    ∃ u, Tree.ofText "while (!x)\n\x7b\n\x7d\n" = .ok u ∧ u.unplaced =
      .loop (.unary ⟨.bang, 0, none⟩ (.leaf ⟨.ident, 0, some (.str "x")⟩)) (.scope []) := by
  have hkey : ∀ k : Kind, k.isKeyword → k.text ≠ "x" := by
    intro k
    cases k <;> decide
  have hx : Token.WellFormed ⟨.ident, 3, some (.str "x")⟩ := ⟨"x", rfl, by decide, hkey⟩
  have hloop : (Tree.loop (.unary ⟨.bang, 7, none⟩ (.leaf ⟨.ident, 3, some (.str "x")⟩))
      (.scope [])).WellFormed :=
    .loop (.unary (by decide) rfl (.leaf rfl hx)) (by simp)
  exact ⟨hloop, (ofText_print.2 _ hloop).1⟩

/-- An expression by itself is well formed and its text is not a program. -/
theorem ofText_text_literal :
    (Tree.leaf ⟨.int, 1, some (.int 1)⟩).WellFormed ∧
    ¬ ∃ u, Tree.ofText (Tree.leaf ⟨.int, 1, some (.int 1)⟩).text = .ok u ∧
      u.unplaced = (Tree.leaf ⟨.int, 1, some (.int 1)⟩).unplaced := by
  have hone : (Tree.leaf ⟨.int, 1, some (.int 1)⟩).WellFormedExpression :=
    .leaf rfl ⟨1, rfl, by decide⟩
  refine ⟨.expression hone, ?_⟩
  rintro ⟨u, hu, -⟩
  obtain ⟨f, hf⟩ := Tree.ofText_text_of_expression hone
  rw [hf] at hu
  cases hu

end Quill
