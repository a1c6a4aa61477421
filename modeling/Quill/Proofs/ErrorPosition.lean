import Quill.Proofs.StuckExpressions

/-!
Where a program goes wrong. Tokens that are no program go wrong at one definite
token: what comes before it is the beginning of some program, and together with it
of none. The fault of parsing points at this token.

Statements are treated as expressions are: `StatementStuck` says how some tokens
begin a statement that the token behind them cannot be part of, and which fault
reports it. Every fault but one names the token itself. An expression that is
followed by `=` and is no name is found out only when the `=` comes, and then the
expression is named instead.
-/

namespace Quill

namespace Parser

/-! ### Statements by their first tokens -/

section

variable {bound : Nat} {kw name t mark l : Token} {ts v : List Token}

theorem declaration_of_ne_ident (hkw : kw.kind = .kwLet) (ht : t.kind ≠ .ident) :
    declaration bound (kw :: t :: ts) = .error (t.blame (.kind .ident)) := by
  rw [declaration, bind_of_ok (expect_eq_ok_iff.2 ⟨rfl, hkw⟩), bind_of_error (expect_of_ne ht ts)]
  rfl

theorem declaration_of_ne_assign (hkw : kw.kind = .kwLet) (hname : name.kind = .ident)
    (ht : t.kind ≠ .assign) :
    declaration bound (kw :: name :: t :: ts) =
      (do let _ ← expect .semi; return Tree.declare name : Parser Tree) (t :: ts) := by
  rw [declaration, bind_of_ok (expect_eq_ok_iff.2 ⟨rfl, hkw⟩),
    bind_of_ok (expect_eq_ok_iff.2 ⟨rfl, hname⟩), bind_of_ok (get_eq_ok_iff.2 ⟨rfl, rfl⟩),
    if_neg (by simp [nextIn, ht])]

theorem declaration_of_assign (hkw : kw.kind = .kwLet) (hname : name.kind = .ident)
    (hmark : mark.kind = .assign) :
    declaration bound (kw :: name :: mark :: ts) =
      (do let init ← expression bound; let _ ← expect .semi; return Tree.define name init :
        Parser Tree) ts := by
  rw [declaration, bind_of_ok (expect_eq_ok_iff.2 ⟨rfl, hkw⟩),
    bind_of_ok (expect_eq_ok_iff.2 ⟨rfl, hname⟩), bind_of_ok (get_eq_ok_iff.2 ⟨rfl, rfl⟩),
    if_pos (by simp [nextIn, hmark]), bind_of_ok (expect_eq_ok_iff.2 ⟨rfl, hmark⟩)]

theorem keywordStatement_cons {k : Kind} {make : Tree → Tree} (hkw : kw.kind = k) :
    keywordStatement k make bound (kw :: ts) =
      (do let arg ← expression bound; let _ ← expect .semi; return make arg : Parser Tree) ts := by
  rw [keywordStatement, bind_of_ok (expect_eq_ok_iff.2 ⟨rfl, hkw⟩)]

theorem conditional_of_ne_lparen {k : Kind} {make : Tree → Tree → Tree} {p : Parser Tree}
    (hkw : kw.kind = k) (ht : t.kind ≠ .lparen) :
    conditional k make bound p (kw :: t :: ts) = .error (t.blame (.kind .lparen)) := by
  rw [conditional, bind_of_ok (expect_eq_ok_iff.2 ⟨rfl, hkw⟩), bind_of_error (expect_of_ne ht ts)]
  rfl

theorem conditional_of_lparen {k : Kind} {make : Tree → Tree → Tree} {p : Parser Tree}
    (hkw : kw.kind = k) (hl : l.kind = .lparen) :
    conditional k make bound p (kw :: l :: ts) =
      (do
        let cond ← expression bound
        let _ ← expect .rparen
        let body ← block bound p
        return make cond body : Parser Tree) ts := by
  rw [conditional, bind_of_ok (expect_eq_ok_iff.2 ⟨rfl, hkw⟩),
    bind_of_ok (expect_eq_ok_iff.2 ⟨rfl, hl⟩)]

theorem block_of_ne_lbrace {p : Parser Tree} (ht : t.kind ≠ .lbrace) :
    block bound p (t :: ts) = .error (t.blame (.kind .lbrace)) := by
  rw [block, bind_of_error (expect_of_ne ht ts)]
  rfl

theorem block_of_lbrace {p : Parser Tree} (hl : l.kind = .lbrace) :
    block bound p (l :: ts) =
      (do
        let body ← statementsUntil [.rbrace, .eof] p bound
        let _ ← expect .rbrace
        return Tree.scope body : Parser Tree) ts := by
  rw [block, bind_of_ok (expect_eq_ok_iff.2 ⟨rfl, hl⟩)]

theorem expressionStatement_of_error {f : Fault} (h : expression bound ts = .error f) :
    expressionStatement bound ts = .error f := by
  have hassign : assignment bound ts = .error f := bind_of_error h
  exact bind_of_error hassign

theorem expressionStatement_of_ne_assign {a : Tree} (h : expression bound ts = .ok (a, t :: v))
    (ht : t.kind ≠ .assign) :
    expressionStatement bound ts =
      (do let _ ← expect .semi; return a : Parser Tree) (t :: v) := by
  have hassign : assignment bound ts = .ok (a, t :: v) :=
    assignment_eq_ok_iff.2 (.inl ⟨h, by simp [nextIn, ht]⟩)
  rw [expressionStatement, bind_of_ok hassign]

theorem assignment_of_target {a : Tree} (h : expression bound ts = .ok (a, mark :: v))
    (hmark : mark.kind = .assign) (ha : a.identifier? = none) :
    assignment bound ts = .error (.parse .target (some a.text) mark.line) := by
  rw [assignment, bind_of_ok h, bind_of_ok (get_eq_ok_iff.2 ⟨rfl, rfl⟩),
    if_pos (by simp [nextIn, hmark]), bind_of_ok (expect_eq_ok_iff.2 ⟨rfl, hmark⟩), ha]
  rfl

theorem assignment_of_name (h : expression bound ts = .ok (.leaf name, mark :: v))
    (hname : name.kind = .ident) (hmark : mark.kind = .assign) :
    assignment bound ts =
      (do let value ← expression bound; return Tree.assign name value : Parser Tree) v := by
  rw [assignment, bind_of_ok h, bind_of_ok (get_eq_ok_iff.2 ⟨rfl, rfl⟩),
    if_pos (by simp [nextIn, hmark]), bind_of_ok (expect_eq_ok_iff.2 ⟨rfl, hmark⟩),
    identifier?_eq_some_iff.2 ⟨rfl, hname⟩]

theorem expressionStatement_of_target {a : Tree} (h : expression bound ts = .ok (a, mark :: v))
    (hmark : mark.kind = .assign) (ha : a.identifier? = none) :
    expressionStatement bound ts = .error (.parse .target (some a.text) mark.line) :=
  bind_of_error (assignment_of_target h hmark ha)

theorem expressionStatement_of_name (h : expression bound ts = .ok (.leaf name, mark :: v))
    (hname : name.kind = .ident) (hmark : mark.kind = .assign) :
    expressionStatement bound ts =
      (do let value ← expression bound; let _ ← expect .semi; return Tree.assign name value :
        Parser Tree) v := by
  rw [expressionStatement, bind_apply, assignment_of_name h hname hmark, ← bind_apply]
  simp only [bind_assoc, pure_bind]

end

end Parser

namespace Grammar

open Quill.Parser

/-! ### Statements that go wrong -/

/-- The tokens begin an expression that a token of this kind is to close, and the
token behind them cannot come next. -/
inductive EnclosedStuck (k : Kind) : List Token → Token → Expected → Prop
  | inside {t : Token} {u : List Token} {e : Expected} (h : ExpressionStuck .equality u t e) :
      EnclosedStuck k u t e
  | unclosed {t : Token} {w : List Token} {a : Tree} (ha : Expression .equality w a)
      (hreach : t.kind ∉ Level.equality.reach) (ht : t.kind ≠ k) : EnclosedStuck k w t (.kind k)

/-- The kinds that settle the form of the statement they begin. Any other
statement begins with an expression. -/
def openers : List Kind := [.kwLet, .lbrace, .kwIf, .kwWhile, .kwPrint, .kwLoad, .kwExec]

/-- The tokens begin a block or a statement, the token behind them cannot come
next, and this fault says so. -/
inductive StatementStuck : Form → List Token → Token → Fault → Prop
  | name {kw t : Token} (hkw : kw.kind = .kwLet) (ht : t.kind ≠ .ident) :
      StatementStuck .statement [kw] t (t.blame (.kind .ident))
  | declare {kw name t : Token} (hkw : kw.kind = .kwLet) (hname : name.kind = .ident)
      (hassign : t.kind ≠ .assign) (ht : t.kind ≠ .semi) :
      StatementStuck .statement [kw, name] t (t.blame (.kind .semi))
  | define {kw name mark t : Token} {u : List Token} {e : Expected} (hkw : kw.kind = .kwLet)
      (hname : name.kind = .ident) (hmark : mark.kind = .assign) (h : EnclosedStuck .semi u t e) :
      StatementStuck .statement (kw :: name :: mark :: u) t (t.blame e)
  | opening {t : Token} (ht : t.kind ≠ .lbrace) :
      StatementStuck .block [] t (t.blame (.kind .lbrace))
  | member {l t : Token} {body : List (List Token × Tree)} {u : List Token} {f : Fault}
      (hl : l.kind = .lbrace) (hbody : ∀ p ∈ body, Statement .statement p.1 p.2)
      (hstart : nextIn [.rbrace, .eof] (u ++ [t]) = false) (h : StatementStuck .statement u t f) :
      StatementStuck .block (l :: body.flatMap Prod.fst ++ u) t f
  | closing {l t : Token} {body : List (List Token × Tree)} (hl : l.kind = .lbrace)
      (hbody : ∀ p ∈ body, Statement .statement p.1 p.2) (ht : t.kind = .eof) :
      StatementStuck .block (l :: body.flatMap Prod.fst) t (t.blame (.kind .rbrace))
  | ofBlock {l t : Token} {u : List Token} {f : Fault} (hl : l.kind = .lbrace)
      (h : StatementStuck .block (l :: u) t f) : StatementStuck .statement (l :: u) t f
  | simple {k : Kind} {make : Tree → Tree} {kw t : Token} {u : List Token} {e : Expected}
      (hk : Simple k make) (hkw : kw.kind = k) (h : EnclosedStuck .semi u t e) :
      StatementStuck .statement (kw :: u) t (t.blame e)
  | condition {k : Kind} {make : Tree → Tree → Tree} {kw t : Token} (hk : Conditional k make)
      (hkw : kw.kind = k) (ht : t.kind ≠ .lparen) :
      StatementStuck .statement [kw] t (t.blame (.kind .lparen))
  | guard {k : Kind} {make : Tree → Tree → Tree} {kw l t : Token} {u : List Token}
      {e : Expected} (hk : Conditional k make) (hkw : kw.kind = k) (hl : l.kind = .lparen)
      (h : EnclosedStuck .rparen u t e) : StatementStuck .statement (kw :: l :: u) t (t.blame e)
  | body {k : Kind} {make : Tree → Tree → Tree} {kw l r t : Token} {w u : List Token} {a : Tree}
      {f : Fault} (hk : Conditional k make) (hkw : kw.kind = k) (hl : l.kind = .lparen)
      (ha : Expression .equality w a) (hr : r.kind = .rparen) (h : StatementStuck .block u t f) :
      StatementStuck .statement (kw :: l :: w ++ r :: u) t f
  | plain {t : Token} {u : List Token} {e : Expected}
      (hstart : nextIn openers (u ++ [t]) = false) (h : ExpressionStuck .equality u t e) :
      StatementStuck .statement u t (t.blame e)
  | semicolon {t : Token} {w : List Token} {a : Tree} (ha : Expression .equality w a)
      (hreach : t.kind ∉ Level.equality.reach) (hassign : t.kind ≠ .assign) (ht : t.kind ≠ .semi) :
      StatementStuck .statement w t (t.blame (.kind .semi))
  | target {t : Token} {w : List Token} {a : Tree} (ha : Expression .equality w a)
      (hname : a.identifier? = none) (ht : t.kind = .assign) :
      StatementStuck .statement w t (.parse .target (some a.text) t.line)
  | assign {name mark t : Token} {w u : List Token} {e : Expected}
      (hw : Expression .equality w (.leaf name)) (hname : name.kind = .ident)
      (hmark : mark.kind = .assign) (h : EnclosedStuck .semi u t e) :
      StatementStuck .statement (w ++ mark :: u) t (t.blame e)

theorem EnclosedStuck.viable {k : Kind} {u : List Token} {t : Token} {e : Expected}
    (h : EnclosedStuck k u t e) : ∃ x a, Expression .equality (u ++ x) a := by
  cases h with
  | inside h => exact h.viable
  | unclosed ha _ _ => exact ⟨[], _, by simpa using ha⟩

theorem Statement.empty_block :
    Statement .block [.ofKind .lbrace, .ofKind .rbrace] (.scope []) := by
  have hnone : ∀ p ∈ ([] : List (List Token × Tree)), Statement .statement p.1 p.2 := by simp
  exact .block rfl hnone rfl

/-- What has been taken can be completed. -/
theorem StatementStuck.viable {form : Form} {u : List Token} {t : Token} {f : Fault}
    (h : StatementStuck form u t f) : ∃ x tree, Statement form (u ++ x) tree := by
  have hsemi := Token.kind_ofKind .semi
  have hrparen := Token.kind_ofKind .rparen
  have hrbrace := Token.kind_ofKind .rbrace
  induction h with
  | name hkw _ => exact ⟨[.ofKind .ident, .ofKind .semi], _, .declare hkw rfl hsemi⟩
  | declare hkw hname _ _ => exact ⟨[.ofKind .semi], _, .declare hkw hname hsemi⟩
  | define hkw hname hmark h =>
      obtain ⟨x, a, ha⟩ := h.viable
      exact ⟨x ++ [.ofKind .semi], _, by simpa using Statement.define hkw hname hmark ha hsemi⟩
  | opening _ => exact ⟨[.ofKind .lbrace, .ofKind .rbrace], _, Statement.empty_block⟩
  | @member l t body u f hl hbody _ _ ih =>
      obtain ⟨x, tree, htree⟩ := ih
      have hall : ∀ p ∈ body ++ [(u ++ x, tree)], Statement .statement p.1 p.2 :=
        List.forall_mem_append.2 ⟨hbody, List.forall_mem_singleton.2 htree⟩
      exact ⟨x ++ [.ofKind .rbrace], _, by simpa using Statement.block hl hall hrbrace⟩
  | closing hl hbody _ => exact ⟨[.ofKind .rbrace], _, .block hl hbody hrbrace⟩
  | ofBlock _ _ ih =>
      obtain ⟨x, tree, htree⟩ := ih
      exact ⟨x, tree, .ofBlock htree⟩
  | simple hk hkw h =>
      obtain ⟨x, a, ha⟩ := h.viable
      exact ⟨x ++ [.ofKind .semi], _, by simpa using Statement.simple hk hkw ha hsemi⟩
  | condition hk hkw _ =>
      have htrue : Expression .equality [.ofKind .kwTrue] (.leaf (.ofKind .kwTrue)) :=
        (Expression.literal (by simp)).of_primary .equality
      exact ⟨_, _,
        .conditional hk hkw (Token.kind_ofKind .lparen) htrue hrparen Statement.empty_block⟩
  | guard hk hkw hl h =>
      obtain ⟨x, a, ha⟩ := h.viable
      exact ⟨x ++ [.ofKind .rparen, .ofKind .lbrace, .ofKind .rbrace], _, by
        simpa using Statement.conditional hk hkw hl ha hrparen Statement.empty_block⟩
  | body hk hkw hl ha hr _ ih =>
      obtain ⟨x, tree, htree⟩ := ih
      exact ⟨x, _, by simpa using Statement.conditional hk hkw hl ha hr htree⟩
  | plain _ h =>
      obtain ⟨x, a, ha⟩ := h.viable
      exact ⟨x ++ [.ofKind .semi], _, by simpa using Statement.expression ha hsemi⟩
  | semicolon ha _ _ _ => exact ⟨[.ofKind .semi], _, .expression ha hsemi⟩
  | target ha _ _ => exact ⟨[.ofKind .semi], _, .expression ha hsemi⟩
  | assign hw hname hmark h =>
      obtain ⟨x, a, ha⟩ := h.viable
      exact ⟨x ++ [.ofKind .semi], _, by simpa using Statement.assign hw hname hmark ha hsemi⟩

/-! ### Failing whatever follows -/

theorem nextIn_append_cons {ks : List Kind} {u v : List Token} {t : Token} :
    nextIn ks (u ++ t :: v) = nextIn ks (u ++ [t]) := by
  cases u <;> rfl

theorem statement_of_nextIn_openers {n : Nat} {ts : List Token} (h : nextIn openers ts = false) :
    statement (n + 1) ts = expressionStatement (n + 1) ts := by
  cases ts with
  | nil => rfl
  | cons t ts =>
      have ht : t.kind ∉ openers := by simpa [nextIn] using h
      rw [statement_cons]
      revert ht
      generalize t.kind = k
      intro ht
      cases k <;> first | rfl | exact absurd ht (by decide)

theorem EnclosedStuck.bind_eq {k : Kind} {u : List Token} {t : Token} {e : Expected}
    (h : EnclosedStuck k u t e) {bound : Nat} {v : List Token}
    (hbound : (u ++ t :: v).length ≤ bound) {g : Tree → Parser Tree} :
    (do let a ← expression bound; let _ ← expect k; g a : Parser Tree) (u ++ t :: v) =
      .error (t.blame e) := by
  cases h with
  | inside h => exact bind_of_error (h.expression_eq hbound)
  | unclosed ha hreach ht =>
      rw [bind_of_ok (expression_of_derivation ha hbound hreach), bind_of_error (expect_of_ne ht v)]
      rfl

section

variable {stops : List Kind} (hstops : stops ⊆ [.rbrace, .eof]) {body : List (List Token × Tree)}
  (hbody : ∀ p ∈ body, Statement .statement p.1 p.2) {bound rounds : Nat} {t : Token}
  {v : List Token}

include hstops hbody

/-- Statements are taken one by one, up to a token that stops them. -/
theorem statementsUntil_of_statements (ht : t.kind ∈ stops)
    (hbound : (body.flatMap Prod.fst ++ t :: v).length ≤ bound)
    (hrounds : (body.flatMap Prod.fst ++ t :: v).length ≤ rounds) :
    statementsUntil stops (statement bound) rounds (body.flatMap Prod.fst ++ t :: v) =
      .ok (body.map Prod.snd, t :: v) := by
  refine statementsUntil_of_derivation ?_ ?_ ht hbound hrounds
  · intro q hq rest hlength
    exact formParser_of_derivation (hbody q hq) hlength
  · intro q hq
    obtain ⟨s, w', hw, hs⟩ := (hbody q hq).exists_cons
    exact ⟨s, w', hw, fun hmem => hs (hstops hmem)⟩

/-- Statements are taken one by one, up to the one that fails. -/
theorem statementsUntil_of_error {u : List Token} {f : Fault}
    (hstart : nextIn stops (u ++ [t]) = false) (herr : statement bound (u ++ t :: v) = .error f)
    (hbound : (body.flatMap Prod.fst ++ (u ++ t :: v)).length ≤ bound)
    (hrounds : (body.flatMap Prod.fst ++ (u ++ t :: v)).length ≤ rounds) :
    statementsUntil stops (statement bound) rounds (body.flatMap Prod.fst ++ (u ++ t :: v)) =
      .error f := by
  induction body generalizing rounds with
  | nil =>
      obtain ⟨n, rfl⟩ : ∃ n, rounds = n + 1 := by
        simp only [List.flatMap_nil, List.nil_append, List.length_append, List.length_cons]
          at hrounds
        exact ⟨rounds - 1, by omega⟩
      rw [← nextIn_append_cons] at hstart
      rw [List.flatMap_nil, List.nil_append, statementsUntil_succ hstart, bind_of_error herr]
  | cons q body ih =>
      obtain ⟨hq, hbody⟩ := List.forall_mem_cons.1 hbody
      simp only [List.flatMap_cons, List.append_assoc] at hbound hrounds ⊢
      have hfirst : statement bound (q.1 ++ (body.flatMap Prod.fst ++ (u ++ t :: v))) =
          .ok (q.2, body.flatMap Prod.fst ++ (u ++ t :: v)) := formParser_of_derivation hq hbound
      obtain ⟨s, w', hw, hs⟩ := hq.exists_cons
      have hnext : nextIn stops (q.1 ++ (body.flatMap Prod.fst ++ (u ++ t :: v))) = false := by
        have hmem : s.kind ∉ stops := fun hmem => hs (hstops hmem)
        simp [hw, nextIn, hmem]
      rw [List.length_append, hw, List.length_cons] at hbound hrounds
      obtain ⟨n, rfl⟩ : ∃ n, rounds = n + 1 := ⟨rounds - 1, by omega⟩
      have htail := ih hbody (by omega) (show _ ≤ n by omega)
      rw [statementsUntil_succ hnext, bind_of_ok hfirst, bind_of_error htail]

end

theorem Expression.nextIn_openers {w : List Token} {a : Tree} {t : Token} {v : List Token}
    (ha : Expression .equality w a) : nextIn openers (w ++ t :: v) = false := by
  obtain ⟨s, w', rfl, hs⟩ := ha.exists_cons
  have hopen : s.kind ∉ openers := by
    revert hs
    generalize s.kind = k
    revert k
    decide
  simp [nextIn, hopen]

/-- Once a statement is stuck its parser fails, whatever comes later. -/
theorem StatementStuck.formParser_eq {form : Form} {u : List Token} {t : Token} {f : Fault}
    (h : StatementStuck form u t f) {bound : Nat} {v : List Token}
    (hbound : (u ++ t :: v).length ≤ bound) : formParser bound form (u ++ t :: v) = .error f := by
  obtain ⟨n, rfl⟩ : ∃ n, bound = n + 1 := by
    rw [List.length_append, List.length_cons] at hbound
    exact ⟨bound - 1, by omega⟩
  induction h generalizing n with
  | name hkw ht =>
      simp only [formParser, List.cons_append, List.nil_append, statement_cons, hkw]
      exact declaration_of_ne_ident hkw ht
  | declare hkw hname hassign ht =>
      simp only [formParser, List.cons_append, List.nil_append, statement_cons, hkw]
      rw [declaration_of_ne_assign hkw hname hassign, bind_of_error (expect_of_ne ht v)]
      rfl
  | define hkw hname hmark h =>
      simp only [List.cons_append, List.length_cons] at hbound
      simp only [formParser, List.cons_append, statement_cons, hkw]
      rw [declaration_of_assign hkw hname hmark]
      exact h.bind_eq (by omega)
  | opening ht => exact block_of_ne_lbrace ht
  | @member l t body u f hl hbody hstart _ ih =>
      simp only [List.cons_append, List.append_assoc, List.length_cons] at hbound
      have hlength : (u ++ t :: v).length ≤ n := by
        rw [List.length_append] at hbound
        omega
      obtain ⟨m, rfl⟩ : ∃ m, n = m + 1 := by
        rw [List.length_append, List.length_cons] at hlength
        exact ⟨n - 1, by omega⟩
      simp only [formParser, List.cons_append, List.append_assoc]
      rw [block_of_lbrace hl]
      exact bind_of_error (statementsUntil_of_error (List.Subset.refl _) hbody hstart
        (ih m hlength) (by omega) (by omega))
  | @closing l t body hl hbody ht =>
      simp only [List.cons_append, List.length_cons] at hbound
      have hstatements : statementsUntil [.rbrace, .eof] (statement n) (n + 1)
          (body.flatMap Prod.fst ++ t :: v) = .ok (body.map Prod.snd, t :: v) :=
        statementsUntil_of_statements (List.Subset.refl _) hbody (by simp [ht]) (by omega)
          (by omega)
      have hne : t.kind ≠ .rbrace := by rw [ht]; decide
      rw [formParser, List.cons_append, block_of_lbrace hl]
      exact (bind_of_ok hstatements).trans (bind_of_error (expect_of_ne hne v))
  | ofBlock hl _ ih =>
      have hblock := ih n hbound
      simp only [formParser, List.cons_append, statement_cons, hl] at hblock ⊢
      exact hblock
  | @simple k make kw t u e hk hkw h =>
      simp only [List.cons_append, List.length_cons] at hbound
      have hsimple : keywordStatement k make (n + 1) (kw :: (u ++ t :: v)) =
          .error (t.blame e) := by
        rw [keywordStatement_cons hkw]
        exact h.bind_eq (by omega)
      simp only [formParser, List.cons_append, statement_cons, hkw]
      cases hk <;> exact hsimple
  | @condition k make kw t hk hkw ht =>
      have hconditional : conditional k make (n + 1) (statement n) (kw :: t :: v) =
        .error (t.blame (.kind .lparen)) := conditional_of_ne_lparen hkw ht
      simp only [formParser, List.cons_append, List.nil_append, statement_cons, hkw]
      cases hk <;> exact hconditional
  | @guard k make kw l t u e hk hkw hl h =>
      simp only [List.cons_append, List.length_cons] at hbound
      have hconditional : conditional k make (n + 1) (statement n) (kw :: l :: (u ++ t :: v)) =
          .error (t.blame e) := by
        rw [conditional_of_lparen hkw hl]
        exact h.bind_eq (by omega)
      simp only [formParser, List.cons_append, statement_cons, hkw]
      cases hk <;> exact hconditional
  | @body k make kw l r t w u a f hk hkw hl ha hr _ ih =>
      simp only [List.cons_append, List.append_assoc, List.length_cons] at hbound
      have hcond : expression (n + 1) (w ++ r :: (u ++ t :: v)) = .ok (a, r :: (u ++ t :: v)) :=
        expression_of_derivation ha (by omega) (by rw [hr]; decide)
      have hblock : block (n + 1) (statement n) (u ++ t :: v) = .error f := by
        refine ih n ?_
        rw [List.length_append, List.length_cons] at hbound
        omega
      have hconditional : conditional k make (n + 1) (statement n)
          (kw :: l :: (w ++ r :: (u ++ t :: v))) = .error f := by
        rw [conditional_of_lparen hkw hl, bind_of_ok hcond,
          bind_of_ok (expect_eq_ok_iff.2 ⟨rfl, hr⟩), bind_of_error hblock]
      simp only [formParser, List.cons_append, List.append_assoc, statement_cons, hkw]
      cases hk <;> exact hconditional
  | plain hstart h =>
      rw [formParser, statement_of_nextIn_openers (by rw [nextIn_append_cons, hstart])]
      exact expressionStatement_of_error (h.expression_eq hbound)
  | semicolon ha hreach hassign ht =>
      rw [formParser, statement_of_nextIn_openers ha.nextIn_openers,
        expressionStatement_of_ne_assign (expression_of_derivation ha hbound hreach) hassign,
        bind_of_error (expect_of_ne ht v)]
      rfl
  | target ha hname ht =>
      rw [formParser, statement_of_nextIn_openers ha.nextIn_openers]
      exact expressionStatement_of_target
        (expression_of_derivation ha hbound (by rw [ht]; decide)) ht hname
  | @assign name mark t w u e hw hname hmark h =>
      simp only [List.append_assoc, List.cons_append] at hbound ⊢
      rw [formParser, statement_of_nextIn_openers hw.nextIn_openers,
        expressionStatement_of_name
          (expression_of_derivation hw hbound (by rw [hmark]; decide)) hname hmark]
      refine h.bind_eq ?_
      rw [List.length_append, List.length_cons] at hbound
      omega

/-! ### Failing to parse a statement -/

/-- The fault reports a way in which these tokens get stuck. -/
def StatementFailsAt (form : Form) (ts : List Token) (f : Fault) : Prop :=
  ∃ u t v, ts = u ++ t :: v ∧ StatementStuck form u t f

/-- An expression that is to be closed gets stuck, or what follows it fails. -/
theorem enclosedStuck_of_bind {k : Kind} {g : Tree → Parser Tree} {bound : Nat} {ts : List Token}
    {f : Fault} (hbound : ts.length ≤ bound) (hended : Ended ts)
    (h : (do let a ← expression bound; let _ ← expect k; g a : Parser Tree) ts = .error f) :
    (∃ u t v e, ts = u ++ t :: v ∧ EnclosedStuck k u t e ∧ f = t.blame e) ∨
    (∃ w r v a, ts = w ++ r :: v ∧ Expression .equality w a ∧ r.kind = k ∧ Ended (r :: v) ∧
      g a v = .error f) := by
  rcases bind_eq_error_iff.1 h with herr | ⟨a, mid, hok, h⟩
  · obtain ⟨u, t, v, e, rfl, hstuck, rfl⟩ := failsAt_of_expression hbound hended herr
    exact .inl ⟨u, t, v, e, rfl, .inside hstuck, rfl⟩
  · obtain ⟨w, r, v, rfl, rfl, ha, hreach, hrest⟩ := exists_of_expression hbound hended hok
    by_cases hr : r.kind = k
    · rw [bind_of_ok (expect_eq_ok_iff.2 ⟨rfl, hr⟩)] at h
      exact .inr ⟨w, r, v, a, rfl, ha, hr, hrest, h⟩
    · rw [bind_of_error (expect_of_ne hr v)] at h
      cases h
      exact .inl ⟨w, r, v, _, rfl, .unclosed ha hreach hr, rfl⟩

section

variable {bound : Nat} {ts : List Token} {f : Fault}

theorem failsAt_declaration {kw : Token} (hkw : kw.kind = .kwLet)
    (hbound : (kw :: ts).length ≤ bound) (hended : Ended (kw :: ts))
    (h : declaration bound (kw :: ts) = .error f) : StatementFailsAt .statement (kw :: ts) f := by
  have hts : Ended ts := hended.of_cons (by rw [hkw]; decide)
  obtain ⟨name, us, rfl⟩ := hts.exists_cons
  by_cases hname : name.kind = .ident
  · have hus : Ended us := hts.of_cons (by rw [hname]; decide)
    obtain ⟨mark, vs, rfl⟩ := hus.exists_cons
    by_cases hmark : mark.kind = .assign
    · rw [declaration_of_assign hkw hname hmark] at h
      simp only [List.length_cons] at hbound
      rcases enclosedStuck_of_bind (by omega) (hus.of_cons (by rw [hmark]; decide)) h with
        ⟨u, t, v, e, rfl, hstuck, rfl⟩ | ⟨_, _, _, _, _, _, _, _, h⟩
      · exact ⟨kw :: name :: mark :: u, t, v, rfl, .define hkw hname hmark hstuck⟩
      · cases h
    · rw [declaration_of_ne_assign hkw hname hmark] at h
      by_cases hsemi : mark.kind = .semi
      · rw [bind_of_ok (expect_eq_ok_iff.2 ⟨rfl, hsemi⟩)] at h
        cases h
      · rw [bind_of_error (expect_of_ne hsemi vs)] at h
        cases h
        exact ⟨[kw, name], mark, vs, rfl, .declare hkw hname hmark hsemi⟩
  · rw [declaration_of_ne_ident hkw hname] at h
    cases h
    exact ⟨[kw], name, us, rfl, .name hkw hname⟩

theorem failsAt_keywordStatement {k : Kind} {make : Tree → Tree} {kw : Token}
    (hk : Simple k make) (hkw : kw.kind = k) (hbound : (kw :: ts).length ≤ bound)
    (hended : Ended (kw :: ts)) (h : keywordStatement k make bound (kw :: ts) = .error f) :
    StatementFailsAt .statement (kw :: ts) f := by
  have hts : Ended ts := hended.of_cons (by rw [hkw]; cases hk <;> decide)
  rw [keywordStatement_cons hkw] at h
  rw [List.length_cons] at hbound
  rcases enclosedStuck_of_bind (by omega) hts h with
    ⟨u, t, v, e, rfl, hstuck, rfl⟩ | ⟨_, _, _, _, _, _, _, _, h⟩
  · exact ⟨kw :: u, t, v, rfl, .simple hk hkw hstuck⟩
  · cases h

theorem failsAt_expressionStatement (hstart : nextIn openers ts = false)
    (hbound : ts.length ≤ bound) (hended : Ended ts)
    (h : expressionStatement bound ts = .error f) : StatementFailsAt .statement ts f := by
  cases hexpr : expression bound ts with
  | error f' =>
      rw [expressionStatement_of_error hexpr] at h
      cases h
      obtain ⟨u, t, v, e, rfl, hstuck, rfl⟩ := failsAt_of_expression hbound hended hexpr
      rw [nextIn_append_cons] at hstart
      exact ⟨u, t, v, rfl, .plain hstart hstuck⟩
  | ok r =>
      obtain ⟨a, rest⟩ := r
      obtain ⟨w, t, v, rfl, rfl, ha, hreach, hrest⟩ := exists_of_expression hbound hended hexpr
      by_cases hassign : t.kind = .assign
      · cases hname : a.identifier? with
        | none =>
            rw [expressionStatement_of_target hexpr hassign hname] at h
            cases h
            exact ⟨w, t, v, rfl, .target ha hname hassign⟩
        | some name =>
            obtain ⟨rfl, hident⟩ := identifier?_eq_some_iff.1 hname
            rw [expressionStatement_of_name hexpr hident hassign] at h
            rw [List.length_append, List.length_cons] at hbound
            rcases enclosedStuck_of_bind (by omega) (hrest.of_cons (by rw [hassign]; decide)) h with
              ⟨u, t', v', e, rfl, hstuck, rfl⟩ | ⟨_, _, _, _, _, _, _, _, h⟩
            · exact ⟨w ++ t :: u, t', v', by simp, .assign ha hident hassign hstuck⟩
            · cases h
      · rw [expressionStatement_of_ne_assign hexpr hassign] at h
        by_cases hsemi : t.kind = .semi
        · rw [bind_of_ok (expect_eq_ok_iff.2 ⟨rfl, hsemi⟩)] at h
          cases h
        · rw [bind_of_error (expect_of_ne hsemi v)] at h
          cases h
          exact ⟨w, t, v, rfl, .semicolon ha hreach hassign hsemi⟩

end

/-- The parser of statements fails in these ways only. -/
def LocatedStatement (bound : Nat) : Prop :=
  ∀ ts f, ts.length ≤ bound → Ended ts → statement bound ts = .error f →
    StatementFailsAt .statement ts f

section

variable {bound rounds : Nat} {stops : List Kind} {ts : List Token} {f : Fault}

theorem failsAt_statementsUntil (hlocated : LocatedStatement bound) (hbound : ts.length ≤ bound)
    (hended : Ended ts) (h : statementsUntil stops (statement bound) rounds ts = .error f) :
    ∃ (body : List (List Token × Tree)) (u : List Token) (t : Token) (v : List Token),
      ts = body.flatMap Prod.fst ++ (u ++ t :: v) ∧
      (∀ p ∈ body, Statement .statement p.1 p.2) ∧ nextIn stops (u ++ [t]) = false ∧
      StatementStuck .statement u t f := by
  induction rounds generalizing ts with
  | zero => cases h
  | succ rounds ih =>
      cases hnext : nextIn stops ts with
      | true =>
          rw [statementsUntil_of_nextIn hnext] at h
          cases h
      | false =>
          rw [statementsUntil_succ hnext, bind_eq_error_iff] at h
          rcases h with herr | ⟨tree, mid, hok, h⟩
          · obtain ⟨u, t, v, rfl, hstuck⟩ := hlocated ts f hbound hended herr
            rw [nextIn_append_cons] at hnext
            exact ⟨[], u, t, v, rfl, by simp, hnext, hstuck⟩
          · obtain ⟨w, rfl, hw⟩ := soundStatement_statement bound _ _ _ hok
            rw [List.length_append] at hbound
            rcases bind_eq_error_iff.1 h with herr | ⟨_, _, _, h⟩
            · obtain ⟨body, u, t, v, rfl, hbody, hstart, hstuck⟩ :=
                ih (by omega) (hended.of_append hw.kind_ne_eof) herr
              exact ⟨(w, tree) :: body, u, t, v, by simp, List.forall_mem_cons.2 ⟨hw, hbody⟩,
                hstart, hstuck⟩
            · cases h

/-- Statements are taken up to a token that stops them. -/
theorem exists_of_statementsUntil {trees : List Tree} {rest : List Token}
    (hrounds : ts.length ≤ rounds) (hended : Ended ts)
    (h : statementsUntil stops (statement bound) rounds ts = .ok (trees, rest)) :
    ∃ (body : List (List Token × Tree)) (t : Token) (v : List Token),
      ts = body.flatMap Prod.fst ++ t :: v ∧ rest = t :: v ∧
      (∀ p ∈ body, Statement .statement p.1 p.2) ∧ t.kind ∈ stops := by
  induction rounds generalizing ts trees with
  | zero =>
      obtain ⟨t, v, rfl⟩ := hended.exists_cons
      simp at hrounds
  | succ rounds ih =>
      cases hnext : nextIn stops ts with
      | true =>
          rw [statementsUntil_of_nextIn hnext] at h
          cases h
          obtain ⟨t, v, rfl, ht⟩ := nextIn_eq_true_iff.1 hnext
          exact ⟨[], t, v, rfl, rfl, by simp, ht⟩
      | false =>
          obtain ⟨tree, mid, tail, hok, htail, -⟩ := (statementsUntil_eq_ok_iff hnext).1 h
          obtain ⟨w, rfl, hw⟩ := soundStatement_statement bound _ _ _ hok
          -- A statement takes a token at least, so the rounds last.
          obtain ⟨s, w', rfl, -⟩ := hw.exists_cons
          rw [List.length_append, List.length_cons] at hrounds
          obtain ⟨body, t, v, rfl, rfl, hbody, ht⟩ :=
            ih (by omega) (hended.of_append hw.kind_ne_eof) htail
          exact ⟨(s :: w', tree) :: body, t, v, by simp, rfl,
            List.forall_mem_cons.2 ⟨hw, hbody⟩, ht⟩

end

section

variable {n : Nat} (hlocated : LocatedStatement n) {ts : List Token} {f : Fault}

include hlocated

theorem stuck_of_block {l : Token} (hl : l.kind = .lbrace) (hbound : (l :: ts).length ≤ n + 1)
    (hended : Ended (l :: ts)) (h : block (n + 1) (statement n) (l :: ts) = .error f) :
    ∃ u t v, ts = u ++ t :: v ∧ StatementStuck .block (l :: u) t f := by
  have hts : Ended ts := hended.of_cons (by rw [hl]; decide)
  rw [List.length_cons] at hbound
  rw [block_of_lbrace hl, bind_eq_error_iff] at h
  rcases h with herr | ⟨trees, rest, hok, h⟩
  · obtain ⟨body, u, t, v, rfl, hbody, hstart, hstuck⟩ :=
      failsAt_statementsUntil hlocated (by omega) hts herr
    exact ⟨body.flatMap Prod.fst ++ u, t, v, by simp, .member hl hbody hstart hstuck⟩
  · obtain ⟨body, t, v, rfl, rfl, hbody, ht⟩ := exists_of_statementsUntil (by omega) hts hok
    by_cases hr : t.kind = .rbrace
    · rw [bind_of_ok (expect_eq_ok_iff.2 ⟨rfl, hr⟩)] at h
      cases h
    · rw [bind_of_error (expect_of_ne hr v)] at h
      cases h
      have heof : t.kind = .eof := by simpa [hr] using ht
      exact ⟨body.flatMap Prod.fst, t, v, rfl, .closing hl hbody heof⟩

theorem failsAt_block (hbound : ts.length ≤ n + 1) (hended : Ended ts)
    (h : block (n + 1) (statement n) ts = .error f) : StatementFailsAt .block ts f := by
  obtain ⟨l, us, rfl⟩ := hended.exists_cons
  by_cases hl : l.kind = .lbrace
  · obtain ⟨u, t, v, rfl, hstuck⟩ := stuck_of_block hlocated hl hbound hended h
    exact ⟨l :: u, t, v, rfl, hstuck⟩
  · rw [block_of_ne_lbrace hl] at h
    cases h
    exact ⟨[], l, us, rfl, .opening hl⟩

theorem failsAt_conditional {k : Kind} {make : Tree → Tree → Tree} {kw : Token}
    (hk : Conditional k make) (hkw : kw.kind = k) (hbound : (kw :: ts).length ≤ n + 1)
    (hended : Ended (kw :: ts))
    (h : conditional k make (n + 1) (statement n) (kw :: ts) = .error f) :
    StatementFailsAt .statement (kw :: ts) f := by
  have hts : Ended ts := hended.of_cons (by rw [hkw]; cases hk <;> decide)
  obtain ⟨l, us, rfl⟩ := hts.exists_cons
  by_cases hl : l.kind = .lparen
  · rw [conditional_of_lparen hkw hl] at h
    simp only [List.length_cons] at hbound
    rcases enclosedStuck_of_bind (by omega) (hts.of_cons (by rw [hl]; decide)) h with
      ⟨u, t, v, e, rfl, hstuck, rfl⟩ | ⟨w, r, v, a, rfl, ha, hr, hrest, h⟩
    · exact ⟨kw :: l :: u, t, v, rfl, .guard hk hkw hl hstuck⟩
    · rw [List.length_append, List.length_cons] at hbound
      rcases bind_eq_error_iff.1 h with herr | ⟨_, _, _, h⟩
      · obtain ⟨u, t, v, rfl, hstuck⟩ :=
          failsAt_block hlocated (by omega) (hrest.of_cons (by rw [hr]; decide)) herr
        exact ⟨kw :: l :: w ++ r :: u, t, v, by simp, .body hk hkw hl ha hr hstuck⟩
      · cases h
  · rw [conditional_of_ne_lparen hkw hl] at h
    cases h
    exact ⟨[kw], l, us, rfl, .condition hk hkw hl⟩

end

/-- A statement that is not parsed gets stuck. -/
theorem locatedStatement (bound : Nat) : LocatedStatement bound := by
  induction bound with
  | zero =>
      intro ts f hbound hended _
      obtain ⟨t, us, rfl⟩ := hended.exists_cons
      simp at hbound
  | succ n ih =>
      intro ts f hbound hended h
      obtain ⟨t, us, rfl⟩ := hended.exists_cons
      rw [statement_cons] at h
      split at h
      · next ht => exact failsAt_declaration ht hbound hended h
      · next ht =>
          obtain ⟨u, s, v, rfl, hstuck⟩ := stuck_of_block ih ht hbound hended h
          exact ⟨t :: u, s, v, rfl, .ofBlock ht hstuck⟩
      · next ht => exact failsAt_conditional ih .branch ht hbound hended h
      · next ht => exact failsAt_conditional ih .loop ht hbound hended h
      · next ht => exact failsAt_keywordStatement .print ht hbound hended h
      · next ht => exact failsAt_keywordStatement .load ht hbound hended h
      · next ht => exact failsAt_keywordStatement .exec ht hbound hended h
      · next hlet hlbrace hif hwhile hprint hload hexec =>
          refine failsAt_expressionStatement ?_ hbound hended h
          simpa [nextIn, openers] using ⟨hlet, hlbrace, hif, hwhile, hprint, hload, hexec⟩

/-! ### What the fault names -/

theorem ExpressionStuck.ne_target {level : Level} {u : List Token} {t : Token} {e : Expected}
    (h : ExpressionStuck level u t e) : e ≠ .target := by
  induction h with
  | start _ => decide
  | unclosed _ _ _ _ => decide
  | group _ _ ih => exact ih
  | sign _ _ ih => exact ih
  | single _ ih => exact ih
  | operand _ _ _ ih => exact ih

theorem EnclosedStuck.ne_target {k : Kind} {u : List Token} {t : Token} {e : Expected}
    (h : EnclosedStuck k u t e) : e ≠ .target := by
  cases h with
  | inside h => exact h.ne_target
  | unclosed _ _ _ => simp

/-- A statement may begin behind these tokens. -/
def Boundary (ts : List Token) : Prop :=
  ∀ s ∈ ts.getLast?, s.kind ∈ [Kind.semi, .lbrace, .rbrace]

theorem Boundary.append {ys : List Token} (hys : Boundary ys) (xs : List Token)
    (hxs : ys = [] → Boundary xs) : Boundary (xs ++ ys) := by
  rcases List.eq_nil_or_concat ys with rfl | ⟨zs, z, rfl⟩
  · rw [List.append_nil]
    exact hxs rfl
  · simpa [Boundary] using hys

theorem boundary_flatMap {body : List (List Token × Tree)}
    (hbody : ∀ p ∈ body, Statement .statement p.1 p.2) : Boundary (body.flatMap Prod.fst) := by
  rcases List.eq_nil_or_concat body with rfl | ⟨parts, p, rfl⟩
  · simp [Boundary]
  · obtain ⟨v, s, hp, hs⟩ := (hbody p (by simp)).exists_concat
    have hsub : [Kind.semi, .rbrace] ⊆ [Kind.semi, .lbrace, .rbrace] := by decide
    simpa [Boundary, hp] using hsub hs

/-- The fault names the token; only an expression that is assigned to is named
itself, and it begins a statement. In a block there is the brace before it. -/
theorem StatementStuck.fault_eq {form : Form} {u : List Token} {t : Token} {f : Fault}
    (h : StatementStuck form u t f) :
    (∃ e, e ≠ .target ∧ f = t.blame e) ∨
    (∃ earlier w a, u = earlier ++ w ∧ Boundary earlier ∧ (form = .block → earlier ≠ []) ∧
      Expression .equality w a ∧ a.identifier? = none ∧ t.kind = .assign ∧
      f = .parse .target (some a.text) t.line) := by
  induction h with
  | name _ _ => exact .inl ⟨_, by simp, rfl⟩
  | declare _ _ _ _ => exact .inl ⟨_, by simp, rfl⟩
  | define _ _ _ h => exact .inl ⟨_, h.ne_target, rfl⟩
  | opening _ => exact .inl ⟨_, by simp, rfl⟩
  | @member l t body u f hl hbody _ _ ih =>
      refine ih.imp_right ?_
      rintro ⟨earlier, w, a, rfl, hearlier, -, ha, hname, ht, rfl⟩
      have hopen : Boundary (l :: body.flatMap Prod.fst) :=
        (boundary_flatMap hbody).append [l] fun _ => by simp [Boundary, hl]
      exact ⟨l :: body.flatMap Prod.fst ++ earlier, w, a, by simp, hearlier.append _ fun _ => hopen,
        by simp, ha, hname, ht, rfl⟩
  | closing _ _ _ => exact .inl ⟨_, by simp, rfl⟩
  | ofBlock _ _ ih =>
      refine ih.imp_right ?_
      rintro ⟨earlier, w, a, hu, hearlier, -, htarget⟩
      exact ⟨earlier, w, a, hu, hearlier, by simp, htarget⟩
  | simple _ _ h => exact .inl ⟨_, h.ne_target, rfl⟩
  | condition _ _ _ => exact .inl ⟨_, by simp, rfl⟩
  | guard _ _ _ h => exact .inl ⟨_, h.ne_target, rfl⟩
  | @body k make kw l r t v u a f _ _ _ _ _ _ ih =>
      refine ih.imp_right ?_
      rintro ⟨earlier, w, a, rfl, hearlier, hne, htarget⟩
      exact ⟨kw :: l :: v ++ [r] ++ earlier, w, a, by simp,
        hearlier.append _ fun hnil => absurd hnil (hne rfl), by simp, htarget⟩
  | plain _ h => exact .inl ⟨_, h.ne_target, rfl⟩
  | semicolon _ _ _ _ => exact .inl ⟨_, by simp, rfl⟩
  | @target t w a ha hname ht =>
      exact .inr ⟨[], w, a, rfl, by simp [Boundary], by simp, ha, hname, ht, rfl⟩
  | assign _ _ _ h => exact .inl ⟨_, h.ne_target, rfl⟩

/-! ### Programs -/

/-- The tokens begin a program, the token behind them cannot come next, and this
fault says so. -/
inductive ProgramStuck : List Token → Token → Fault → Prop
  | member {body : List (List Token × Tree)} {u : List Token} {t : Token} {f : Fault}
      (hbody : ∀ p ∈ body, Statement .statement p.1 p.2)
      (hstart : nextIn [.eof] (u ++ [t]) = false) (h : StatementStuck .statement u t f) :
      ProgramStuck (body.flatMap Prod.fst ++ u) t f
  | ended {body : List (List Token × Tree)} {last t : Token}
      (hbody : ∀ p ∈ body, Statement .statement p.1 p.2) (hlast : last.kind = .eof) :
      ProgramStuck (body.flatMap Prod.fst ++ [last]) t (t.blame .nothingMore)

theorem exists_derives {body : List (List Token × Tree)} {last : Token}
    (hbody : ∀ p ∈ body, Statement .statement p.1 p.2) (hlast : last.kind = .eof) :
    ∃ tree, Derives (body.flatMap Prod.fst ++ [last]) tree := by
  by_cases hlength : body.length = 1
  · obtain ⟨p, rfl⟩ := List.length_eq_one_iff.1 hlength
    exact ⟨p.2, by simpa using Derives.one (hbody p (by simp)) hlast⟩
  · exact ⟨_, .several hbody hlength hlast⟩

theorem ProgramStuck.viable {u : List Token} {t : Token} {f : Fault} (h : ProgramStuck u t f) :
    ∃ x tree, Derives (u ++ x) tree := by
  cases h with
  | @member body u _ _ hbody _ h =>
      obtain ⟨x, tree, htree⟩ := h.viable
      have hall : ∀ p ∈ body ++ [(u ++ x, tree)], Statement .statement p.1 p.2 :=
        List.forall_mem_append.2 ⟨hbody, List.forall_mem_singleton.2 htree⟩
      obtain ⟨program, hprogram⟩ := exists_derives hall (Token.kind_ofKind .eof)
      exact ⟨x ++ [.ofKind .eof], program, by simpa using hprogram⟩
  | ended hbody hlast =>
      obtain ⟨program, hprogram⟩ := exists_derives hbody hlast
      exact ⟨[], program, by simpa using hprogram⟩

/-- Once a program is stuck its parser fails, whatever comes later. -/
theorem ProgramStuck.program_eq {u : List Token} {t : Token} {f : Fault} (h : ProgramStuck u t f)
    {bound : Nat} {v : List Token} (hbound : (u ++ t :: v).length ≤ bound) :
    program bound (u ++ t :: v) = .error f := by
  have hstops : [Kind.eof] ⊆ [.rbrace, .eof] := by decide
  cases h with
  | @member body u _ _ hbody hstart h =>
      rw [List.append_assoc] at hbound ⊢
      have herr : statement bound (u ++ t :: v) = .error f := by
        refine h.formParser_eq ?_
        rw [List.length_append] at hbound
        omega
      exact bind_of_error (statementsUntil_of_error hstops hbody hstart herr hbound hbound)
  | @ended body last _ hbody hlast =>
      rw [List.append_assoc, List.singleton_append] at hbound ⊢
      have hstatements := statementsUntil_of_statements hstops hbody
        (List.mem_singleton.2 hlast) hbound hbound
      rw [program, bind_of_ok hstatements, bind_of_ok (expect_eq_ok_iff.2 ⟨rfl, hlast⟩),
        bind_of_ok (get_eq_ok_iff.2 ⟨rfl, rfl⟩)]
      rfl

theorem ProgramStuck.fault_eq {u : List Token} {t : Token} {f : Fault} (h : ProgramStuck u t f) :
    (∃ e, e ≠ .target ∧ f = t.blame e) ∨
    (∃ earlier w a, u = earlier ++ w ∧ Boundary earlier ∧ Expression .equality w a ∧
      a.identifier? = none ∧ t.kind = .assign ∧ f = .parse .target (some a.text) t.line) := by
  cases h with
  | @member body u _ _ hbody _ h =>
      refine h.fault_eq.imp_right ?_
      rintro ⟨earlier, w, a, rfl, hearlier, -, htarget⟩
      exact ⟨body.flatMap Prod.fst ++ earlier, w, a, by simp,
        hearlier.append _ fun _ => boundary_flatMap hbody, htarget⟩
  | ended _ _ => exact .inl ⟨_, by simp, rfl⟩

/-- A program that is not parsed gets stuck. -/
theorem exists_programStuck {bound : Nat} {ts : List Token} {f : Fault}
    (hbound : ts.length ≤ bound) (hended : Ended ts) (h : program bound ts = .error f) :
    ∃ u t v, ts = u ++ t :: v ∧ ProgramStuck u t f := by
  rcases bind_eq_error_iff.1 h with herr | ⟨trees, rest, hok, h⟩
  · obtain ⟨body, u, t, v, rfl, hbody, hstart, hstuck⟩ :=
      failsAt_statementsUntil (locatedStatement bound) hbound hended herr
    exact ⟨body.flatMap Prod.fst ++ u, t, v, by simp, .member hbody hstart hstuck⟩
  · obtain ⟨body, last, us, rfl, rfl, hbody, hlast⟩ := exists_of_statementsUntil hbound hended hok
    rw [List.mem_singleton] at hlast
    rw [bind_of_ok (expect_eq_ok_iff.2 ⟨rfl, hlast⟩), bind_of_ok (get_eq_ok_iff.2 ⟨rfl, rfl⟩)] at h
    cases us with
    | nil => cases h
    | cons t v =>
        cases h
        exact ⟨body.flatMap Prod.fst ++ [last], t, v, by simp, .ended hbody hlast⟩

end Grammar

open Grammar

theorem ofTokens_of_ended {ts : List Token} (hended : Ended ts) :
    Tree.ofTokens ts = (Parser.program ts.length ts).map Prod.fst := by
  obtain ⟨us, last, rfl, hlast⟩ := hended
  simp only [Tree.ofTokens, List.getLast?_append, List.getLast?_singleton, Option.some_or,
    if_pos hlast]
  cases Parser.program (us ++ [last]).length (us ++ [last]) <;> rfl

theorem program_of_ofTokens {ts : List Token} {f : Fault} (hended : Ended ts)
    (h : Tree.ofTokens ts = .error f) : Parser.program ts.length ts = .error f := by
  rw [ofTokens_of_ended hended] at h
  cases hprogram : Parser.program ts.length ts with
  | ok r =>
      rw [hprogram] at h
      cases h
  | error e =>
      rw [hprogram] at h
      cases h
      rfl

/-- A fault of parsing points at the first token that cannot be part of a program:
some program begins with all that comes before it, and none with that and the token
itself. The fault is on the line of this token and names it; only where `=` follows
an expression that is no name is it this expression, from the beginning of the
statement, that is named. -/
theorem ofTokens_error_position {ts : List Token} {f : Fault} (hended : Ended ts)
    (h : Tree.ofTokens ts = .error f) :
    ∃ before t after, ts = before ++ t :: after ∧
      (∃ more tree, Tree.ofTokens (before ++ more) = .ok tree) ∧
      (∀ more tree, Tree.ofTokens (before ++ t :: more) ≠ .ok tree) ∧
      f.line? = some t.line ∧
      ((∃ e, e ≠ .target ∧ f = .parse e (some t.text) t.line ∧
          f.description = "expected " ++ e.text ++ ", found " ++ quoted t.text) ∨
        (t.kind = .assign ∧ ∃ earlier w a, before = earlier ++ w ∧ Boundary earlier ∧
          Expression .equality w a ∧ a.identifier? = none ∧
          f = .parse .target (some a.text) t.line ∧
          f.description =
            "expected identifier as assignment target, found " ++ quoted a.text)) := by
  obtain ⟨before, t, after, rfl, hstuck⟩ :=
    exists_programStuck (Nat.le_refl _) hended (program_of_ofTokens hended h)
  refine ⟨before, t, after, rfl, ?_, ?_, ?_⟩
  · obtain ⟨more, tree, hderives⟩ := hstuck.viable
    exact ⟨more, tree, ofTokens_of_derives hderives⟩
  · intro more tree hok
    obtain ⟨-, rest, hprogram⟩ := Tree.ofTokens_eq_ok_iff.1 hok
    rw [hstuck.program_eq (Nat.le_refl _)] at hprogram
    cases hprogram
  · rcases hstuck.fault_eq with
      ⟨e, he, rfl⟩ | ⟨earlier, w, a, hbefore, hearlier, ha, hname, ht, rfl⟩
    · exact ⟨rfl, .inl ⟨e, he, rfl, rfl⟩⟩
    · exact ⟨rfl, .inr ⟨ht, earlier, w, a, hbefore, hearlier, ha, hname, rfl, rfl⟩⟩

/-- In the body of a loop a sum is assigned to, which is noticed on the line below
it. -/
theorem ofTokens_error_position_sum_assigned :
    let number (n : Int64) : Token := ⟨.int, 2, some (.int n)⟩
    let ts : List Token := [⟨.kwWhile, 1, none⟩, ⟨.lparen, 1, none⟩, ⟨.kwTrue, 1, none⟩,
      ⟨.rparen, 1, none⟩, ⟨.lbrace, 1, none⟩, number 1, ⟨.plus, 2, none⟩, number 2,
      ⟨.assign, 3, none⟩, number 3, ⟨.semi, 3, none⟩, ⟨.rbrace, 4, none⟩, ⟨.eof, 4, none⟩]
    Tree.ofTokens ts = .error (.parse .target (some "1 + 2") 3) ∧
      ∃ before t after, ts = before ++ t :: after ∧ t.kind = .assign ∧ t.line = 3 ∧
        (∃ more tree, Tree.ofTokens (before ++ more) = .ok tree) ∧
        ∀ more tree, Tree.ofTokens (before ++ t :: more) ≠ .ok tree := by
  intro number ts
  have hended : Ended ts := ⟨ts.dropLast, ⟨.eof, 4, none⟩, rfl, rfl⟩
  have herr : Tree.ofTokens ts = .error (.parse .target (some "1 + 2") 3) := by rfl
  refine ⟨herr, ?_⟩
  obtain ⟨before, t, after, hts, hviable, hstuck, hline, hfault⟩ :=
    ofTokens_error_position hended herr
  obtain ⟨e, he, hf, -⟩ | ⟨ht, -⟩ := hfault
  · injection hf with hexpected
    exact absurd hexpected.symm he
  · exact ⟨before, t, after, hts, ht, (Option.some.inj hline).symm, hviable, hstuck⟩

end Quill
