import Quill.Proofs.ParserSteps

/-!
The grammar of the language, as a relation between lists of tokens and trees that
knows nothing of the way they are parsed: `Derives ts t` says that the tokens
`ts`, with their end mark, are a program whose tree is `t`.

Parsing is sound for it: every token that a parser takes is accounted for by a
rule. It is complete as well, and there the two things that a parser adds to the
grammar come in. A chain of operators goes on for as long as it can, so what
follows a chain must not begin with an operator of the chain or of a tighter one;
and nesting and repetition are bounded, so the bound has to cover the tokens that
are left. Statements close themselves with a semicolon or a brace and ask nothing
of what follows.
-/

namespace Quill

namespace Grammar

/-! ### The rules -/

/-- The levels of expressions, from the tightest to the loosest. -/
inductive Level
  | primary | unary | multiplicative | additive | comparison | equality
  deriving DecidableEq, Repr

/-- The level that binds tighter by one, of which the operands are. -/
def Level.tighter : Level → Level
  | equality => comparison
  | comparison => additive
  | additive => multiplicative
  | multiplicative => unary
  | unary | primary => primary

/-- The operators that join operands at a level. -/
def Level.operators : Level → List Kind
  | equality => [.equal, .notEqual]
  | comparison => [.less, .lessEqual, .greater, .greaterEqual]
  | additive => [.plus, .minus]
  | multiplicative => [.star, .slash]
  | unary | primary => []

/-- Expressions. A chain of operators of one level groups to the left, which is
why its left operand is of the same level and its right operand of the tighter
one. Parentheses leave no trace in the tree. -/
inductive Expression : Level → List Token → Tree → Prop
  | literal {t : Token} (ht : t.kind ∈ [.int, .string, .kwTrue, .kwFalse, .ident]) :
      Expression .primary [t] (.leaf t)
  | group {l r : Token} {w : List Token} {e : Tree} (hl : l.kind = .lparen)
      (he : Expression .equality w e) (hr : r.kind = .rparen) :
      Expression .primary (l :: w ++ [r]) e
  | sign {op : Token} {w : List Token} {e : Tree} (hop : op.kind ∈ [.minus, .plus, .bang])
      (he : Expression .unary w e) : Expression .unary (op :: w) (.unary op e)
  | single {level : Level} {w : List Token} {e : Tree} (he : Expression level.tighter w e) :
      Expression level w e
  | chain {level : Level} {op : Token} {v w : List Token} {a b : Tree}
      (ha : Expression level v a) (hop : op.kind ∈ level.operators)
      (hb : Expression level.tighter w b) : Expression level (v ++ op :: w) (.binary op a b)

/-- The statements that are a keyword, an expression and a semicolon. -/
inductive Simple : Kind → (Tree → Tree) → Prop
  | print : Simple .kwPrint .print
  | load : Simple .kwLoad .load
  | exec : Simple .kwExec .exec

/-- The statements that are a keyword, a condition and a block. -/
inductive Conditional : Kind → (Tree → Tree → Tree) → Prop
  | branch : Conditional .kwIf .branch
  | loop : Conditional .kwWhile .loop

inductive Form
  | block | statement
  deriving DecidableEq, Repr

/-- Blocks and statements. A sequence of statements is given as the list of its
members, each with the tokens it is made of. -/
inductive Statement : Form → List Token → Tree → Prop
  | declare {kw name semi : Token} (hkw : kw.kind = .kwLet) (hname : name.kind = .ident)
      (hsemi : semi.kind = .semi) : Statement .statement [kw, name, semi] (.declare name)
  | define {kw name mark semi : Token} {w : List Token} {e : Tree} (hkw : kw.kind = .kwLet)
      (hname : name.kind = .ident) (hmark : mark.kind = .assign) (he : Expression .equality w e)
      (hsemi : semi.kind = .semi) :
      Statement .statement (kw :: name :: mark :: w ++ [semi]) (.define name e)
  | block {l r : Token} {body : List (List Token × Tree)} (hl : l.kind = .lbrace)
      (hbody : ∀ p ∈ body, Statement .statement p.1 p.2) (hr : r.kind = .rbrace) :
      Statement .block (l :: body.flatMap Prod.fst ++ [r]) (.scope (body.map Prod.snd))
  | ofBlock {w : List Token} {t : Tree} (h : Statement .block w t) : Statement .statement w t
  | simple {k : Kind} {make : Tree → Tree} {kw semi : Token} {w : List Token} {e : Tree}
      (hk : Simple k make) (hkw : kw.kind = k) (he : Expression .equality w e)
      (hsemi : semi.kind = .semi) : Statement .statement (kw :: w ++ [semi]) (make e)
  | conditional {k : Kind} {make : Tree → Tree → Tree} {kw l r : Token} {v w : List Token}
      {e t : Tree} (hk : Conditional k make) (hkw : kw.kind = k) (hl : l.kind = .lparen)
      (he : Expression .equality v e) (hr : r.kind = .rparen) (ht : Statement .block w t) :
      Statement .statement (kw :: l :: v ++ r :: w) (make e t)
  | expression {semi : Token} {w : List Token} {e : Tree} (he : Expression .equality w e)
      (hsemi : semi.kind = .semi) : Statement .statement (w ++ [semi]) e
  | assign {name mark semi : Token} {v w : List Token} {e : Tree}
      (hname : Expression .equality v (.leaf name)) (hident : name.kind = .ident)
      (hmark : mark.kind = .assign) (he : Expression .equality w e) (hsemi : semi.kind = .semi) :
      Statement .statement (v ++ mark :: w ++ [semi]) (.assign name e)

/-- Programs: statements and an end mark. A single statement is its own tree, and
any other number of them is a scope. -/
inductive Derives : List Token → Tree → Prop
  | one {w : List Token} {t : Tree} {last : Token} (ht : Statement .statement w t)
      (hlast : last.kind = .eof) : Derives (w ++ [last]) t
  | several {body : List (List Token × Tree)} {last : Token}
      (hbody : ∀ p ∈ body, Statement .statement p.1 p.2) (hlength : body.length ≠ 1)
      (hlast : last.kind = .eof) :
      Derives (body.flatMap Prod.fst ++ [last]) (.scope (body.map Prod.snd))

theorem Expression.of_primary {w : List Token} {e : Tree} (h : Expression .primary w e)
    (level : Level) : Expression level w e := by
  have hunary : Expression .unary w e := .single h
  have hmult : Expression .multiplicative w e := .single hunary
  have hadd : Expression .additive w e := .single hmult
  have hcomp : Expression .comparison w e := .single hadd
  cases level <;> first | assumption | exact .single hcomp

theorem Expression.to_equality {level : Level} {w : List Token} {e : Tree}
    (h : Expression level w e) : Expression .equality w e := by
  have hcomp (h : Expression .comparison w e) : Expression .equality w e := .single h
  have hadd (h : Expression .additive w e) : Expression .equality w e := hcomp (.single h)
  have hmult (h : Expression .multiplicative w e) : Expression .equality w e := hadd (.single h)
  have hunary (h : Expression .unary w e) : Expression .equality w e := hmult (.single h)
  cases level with
  | primary => exact hunary (.single h)
  | unary => exact hunary h
  | multiplicative => exact hmult h
  | additive => exact hadd h
  | comparison => exact hcomp h
  | equality => exact h

/-! ### Last tokens

Statements and expressions do not end alike, so an expression is never a program
by itself. -/

theorem Expression.exists_concat {level : Level} {w : List Token} {e : Tree}
    (h : Expression level w e) :
    ∃ v t, w = v ++ [t] ∧ t.kind ∈ [Kind.int, .string, .kwTrue, .kwFalse, .ident, .rparen] := by
  induction h with
  | @literal t ht => exact ⟨[], t, rfl, List.mem_append_left [Kind.rparen] ht⟩
  | @group l r w e _ _ hr _ => exact ⟨l :: w, r, rfl, by simp [hr]⟩
  | @sign op w e _ _ ih =>
      obtain ⟨v, t, rfl, ht⟩ := ih
      exact ⟨op :: v, t, rfl, ht⟩
  | single _ ih => exact ih
  | @chain level op v w a b _ _ _ _ ih =>
      obtain ⟨v', t, rfl, ht⟩ := ih
      exact ⟨v ++ op :: v', t, by simp, ht⟩

theorem Statement.exists_concat {form : Form} {w : List Token} {t : Tree}
    (h : Statement form w t) : ∃ v u, w = v ++ [u] ∧ u.kind ∈ [Kind.semi, .rbrace] := by
  induction h with
  | @declare kw name semi _ _ hsemi => exact ⟨[kw, name], semi, rfl, by simp [hsemi]⟩
  | define _ _ _ _ hsemi => exact ⟨_, _, rfl, by simp [hsemi]⟩
  | block _ _ hr _ => exact ⟨_, _, rfl, by simp [hr]⟩
  | ofBlock _ ih => exact ih
  | simple _ _ _ hsemi => exact ⟨_, _, rfl, by simp [hsemi]⟩
  | @conditional k make kw l r v w e t _ _ _ _ _ _ ih =>
      obtain ⟨v', u, rfl, hu⟩ := ih
      exact ⟨kw :: l :: v ++ r :: v', u, by simp, hu⟩
  | expression _ hsemi => exact ⟨_, _, rfl, by simp [hsemi]⟩
  | assign _ _ _ _ hsemi => exact ⟨_, _, rfl, by simp [hsemi]⟩

theorem Derives.exists_concat {ts : List Token} {t : Tree} (h : Derives ts t) :
    ∃ w last, ts = w ++ [last] ∧
      (w = [] ∨ ∃ v u, w = v ++ [u] ∧ u.kind ∈ [Kind.semi, .rbrace]) := by
  cases h with
  | one ht _ => exact ⟨_, _, rfl, .inr ht.exists_concat⟩
  | @several body last hbody _ _ =>
      refine ⟨_, _, rfl, ?_⟩
      rcases List.eq_nil_or_concat body with rfl | ⟨parts, p, rfl⟩
      · exact .inl rfl
      · obtain ⟨v, u, hp, hu⟩ := (hbody p (by simp)).exists_concat
        exact .inr ⟨parts.flatMap Prod.fst ++ v, u, by simp [hp], hu⟩

theorem Expression.not_derives {level : Level} {w : List Token} {e t : Tree} {last : Token}
    (h : Expression level w e) : ¬ Derives (w ++ [last]) t := by
  intro hd
  obtain ⟨v, u, rfl, hu⟩ := h.exists_concat
  obtain ⟨w', last', heq, hw'⟩ := hd.exists_concat
  obtain ⟨rfl, -⟩ := List.append_inj' heq rfl
  rcases hw' with hnil | ⟨v', u', hcat, hu'⟩
  · simp at hnil
  · obtain ⟨-, hlast⟩ := List.append_inj' hcat rfl
    cases hlast
    revert hu hu'
    cases u.kind <;> decide

open Quill.Parser

/-! ### Soundness -/

/-- Whatever the parser takes is derived at the level. -/
def SoundAt (level : Level) (p : Parser Tree) : Prop :=
  ∀ ts e rest, p ts = .ok (e, rest) → ∃ w, ts = w ++ rest ∧ Expression level w e

theorem soundAt_primary {inner : Parser Tree} (h : SoundAt .equality inner) :
    SoundAt .primary (primary inner) := by
  intro ts e rest hok
  rcases primary_eq_ok_iff.1 hok with ⟨t, rfl, hlit, rfl⟩ | ⟨l, r, mid, rfl, hl, hinner, hr⟩
  · refine ⟨[t], rfl, .literal ?_⟩
    revert hlit
    cases t.kind <;> decide
  · obtain ⟨w, rfl, he⟩ := h mid e (r :: rest) hinner
    exact ⟨l :: w ++ [r], by simp, .group hl he hr⟩

theorem soundAt_unary {inner : Parser Tree} (h : SoundAt .equality inner) :
    SoundAt .unary (unary inner) := by
  intro ts
  induction ts with
  | nil =>
      intro e rest hok
      exact absurd hok (by simp [unary, primary])
  | cons t ts ih =>
      intro e rest hok
      by_cases ht : t.kind ∈ unaryKinds
      · obtain ⟨e', hunary, rfl⟩ := (unary_eq_ok_iff ht).1 hok
        obtain ⟨w, rfl, he⟩ := ih e' rest hunary
        exact ⟨t :: w, rfl, .sign ht he⟩
      · rw [unary_of_not_mem ht] at hok
        obtain ⟨w, hw, he⟩ := soundAt_primary h _ e rest hok
        exact ⟨w, hw, .single he⟩

/-- What a chain has taken in before is the left end of what it takes in all. -/
theorem soundAt_chainFrom {level : Level} {next : Parser Tree} (h : SoundAt level.tighter next)
    {n : Nat} {v ts rest : List Token} {left e : Tree} (hleft : Expression level v left)
    (hok : chainFrom level.operators next n left ts = .ok (e, rest)) :
    ∃ w, ts = w ++ rest ∧ Expression level (v ++ w) e := by
  induction n generalizing v ts left with
  | zero =>
      cases hok
      exact ⟨[], rfl, by simpa using hleft⟩
  | succ n ih =>
      cases hnext : nextIn level.operators ts with
      | false =>
          rw [chainFrom_of_nextIn hnext] at hok
          cases hok
          exact ⟨[], rfl, by simpa using hleft⟩
      | true =>
          obtain ⟨op, us, rfl, hop⟩ := nextIn_eq_true_iff.1 hnext
          obtain ⟨right, mid, hright, htail⟩ := (chainFrom_eq_ok_iff hop).1 hok
          obtain ⟨w, rfl, hw⟩ := h us right mid hright
          obtain ⟨w', rfl, he⟩ := ih (.chain hleft hop hw) htail
          exact ⟨op :: w ++ w', by simp, by simpa using he⟩

theorem soundAt_chain {level : Level} {next : Parser Tree} {bound : Nat}
    (h : SoundAt level.tighter next) : SoundAt level (chain bound level.operators next) := by
  intro ts e rest hok
  obtain ⟨left, mid, hleft, htail⟩ := chain_eq_ok_iff.1 hok
  obtain ⟨v, rfl, hv⟩ := h ts left mid hleft
  obtain ⟨w, rfl, he⟩ := soundAt_chainFrom h (.single hv) htail
  exact ⟨v ++ w, by simp, he⟩

theorem soundAt_expression (n : Nat) : SoundAt .equality (expression n) := by
  induction n with
  | zero =>
      intro ts e rest hok
      cases hok
  | succ n ih =>
      have hmul : SoundAt .multiplicative (multiplicative (n + 1) (expression n)) :=
        soundAt_chain (soundAt_unary ih)
      have hadd : SoundAt .additive (additive (n + 1) (expression n)) := soundAt_chain hmul
      have hcmp : SoundAt .comparison (comparison (n + 1) (expression n)) := soundAt_chain hadd
      exact soundAt_chain hcmp

/-- Whatever the parser takes is a statement. -/
def SoundStatement (p : Parser Tree) : Prop :=
  ∀ ts t rest, p ts = .ok (t, rest) → ∃ w, ts = w ++ rest ∧ Statement .statement w t

theorem sound_statementsUntil {stops : List Kind} {p : Parser Tree} (h : SoundStatement p)
    {n : Nat} {ts rest : List Token} {trees : List Tree}
    (hok : statementsUntil stops p n ts = .ok (trees, rest)) :
    ∃ body : List (List Token × Tree), (∀ q ∈ body, Statement .statement q.1 q.2) ∧
      ts = body.flatMap Prod.fst ++ rest ∧ trees = body.map Prod.snd := by
  induction n generalizing ts trees with
  | zero =>
      cases hok
      exact ⟨[], by simp, rfl, rfl⟩
  | succ n ih =>
      cases hnext : nextIn stops ts with
      | true =>
          rw [statementsUntil_of_nextIn hnext] at hok
          cases hok
          exact ⟨[], by simp, rfl, rfl⟩
      | false =>
          obtain ⟨t, mid, tail, ht, htail, rfl⟩ := (statementsUntil_eq_ok_iff hnext).1 hok
          obtain ⟨w, rfl, hw⟩ := h ts t mid ht
          obtain ⟨body, hbody, rfl, rfl⟩ := ih htail
          refine ⟨(w, t) :: body, ?_, by simp, rfl⟩
          intro q hq
          rcases List.mem_cons.1 hq with rfl | hq
          · exact hw
          · exact hbody q hq

theorem sound_block {p : Parser Tree} (h : SoundStatement p) {bound : Nat}
    {ts rest : List Token} {t : Tree} (hok : block bound p ts = .ok (t, rest)) :
    ∃ w, ts = w ++ rest ∧ Statement .block w t := by
  obtain ⟨l, mid, trees, r, rfl, hl, hbody, hr, rfl⟩ := block_eq_ok_iff.1 hok
  obtain ⟨body, hstatements, rfl, rfl⟩ := sound_statementsUntil h hbody
  exact ⟨l :: body.flatMap Prod.fst ++ [r], by simp, .block hl hstatements hr⟩

theorem soundStatement_declaration (bound : Nat) : SoundStatement (declaration bound) := by
  intro ts t rest hok
  obtain ⟨kw, name, hkw, hname, hform⟩ := declaration_eq_ok_iff.1 hok
  rcases hform with ⟨semi, rfl, hsemi, rfl⟩ | ⟨mark, mid, init, semi, rfl, hmark, hinit, hsemi, rfl⟩
  · exact ⟨[kw, name, semi], rfl, .declare hkw hname hsemi⟩
  · obtain ⟨w, rfl, he⟩ := soundAt_expression bound _ _ _ hinit
    exact ⟨kw :: name :: mark :: w ++ [semi], by simp, .define hkw hname hmark he hsemi⟩

theorem soundStatement_keywordStatement {k : Kind} {make : Tree → Tree} (hk : Simple k make)
    (bound : Nat) : SoundStatement (keywordStatement k make bound) := by
  intro ts t rest hok
  obtain ⟨kw, mid, arg, semi, rfl, hkw, harg, hsemi, rfl⟩ := keywordStatement_eq_ok_iff.1 hok
  obtain ⟨w, rfl, he⟩ := soundAt_expression bound _ _ _ harg
  exact ⟨kw :: w ++ [semi], by simp, .simple hk hkw he hsemi⟩

theorem soundStatement_conditional {k : Kind} {make : Tree → Tree → Tree} {p : Parser Tree}
    (hk : Conditional k make) (hp : SoundStatement p) (bound : Nat) :
    SoundStatement (conditional k make bound p) := by
  intro ts t rest hok
  obtain ⟨kw, l, mid, cond, r, tail, body, rfl, hkw, hl, hcond, hr, hbody, rfl⟩ :=
    conditional_eq_ok_iff.1 hok
  obtain ⟨v, rfl, he⟩ := soundAt_expression bound _ _ _ hcond
  obtain ⟨w, rfl, hw⟩ := sound_block hp hbody
  exact ⟨kw :: l :: v ++ r :: w, by simp, .conditional hk hkw hl he hr hw⟩

theorem soundStatement_expressionStatement (bound : Nat) :
    SoundStatement (expressionStatement bound) := by
  intro ts t rest hok
  obtain ⟨semi, hassign, hsemi⟩ := expressionStatement_eq_ok_iff.1 hok
  rcases assignment_eq_ok_iff.1 hassign with
    ⟨hexpr, -⟩ | ⟨name, mark, mid, value, htarget, hident, hmark, hvalue, rfl⟩
  · obtain ⟨w, rfl, he⟩ := soundAt_expression bound _ _ _ hexpr
    exact ⟨w ++ [semi], by simp, .expression he hsemi⟩
  · obtain ⟨v, rfl, hname⟩ := soundAt_expression bound _ _ _ htarget
    obtain ⟨w, rfl, he⟩ := soundAt_expression bound _ _ _ hvalue
    exact ⟨v ++ mark :: w ++ [semi], by simp, .assign hname hident hmark he hsemi⟩

theorem soundStatement_statement (n : Nat) : SoundStatement (statement n) := by
  induction n with
  | zero =>
      intro ts t rest hok
      cases hok
  | succ n ih =>
      intro ts t rest hok
      cases ts with
      | nil => exact soundStatement_expressionStatement _ _ _ _ hok
      | cons u us =>
          rw [statement_cons] at hok
          split at hok
          · exact soundStatement_declaration _ _ _ _ hok
          · obtain ⟨w, hw, ht⟩ := sound_block ih hok
            exact ⟨w, hw, .ofBlock ht⟩
          · exact soundStatement_conditional .branch ih _ _ _ _ hok
          · exact soundStatement_conditional .loop ih _ _ _ _ hok
          · exact soundStatement_keywordStatement .print _ _ _ _ hok
          · exact soundStatement_keywordStatement .load _ _ _ _ hok
          · exact soundStatement_keywordStatement .exec _ _ _ _ hok
          · exact soundStatement_expressionStatement _ _ _ _ hok

/-- A program that is parsed is derived. -/
theorem derives_of_ofTokens {ts : List Token} {t : Tree} (h : Tree.ofTokens ts = .ok t) :
    Derives ts t := by
  obtain ⟨-, rest, hprogram⟩ := Tree.ofTokens_eq_ok_iff.1 h
  obtain ⟨trees, last, hbody, hlast, rfl, -⟩ := program_eq_ok_iff.1 hprogram
  obtain ⟨body, hstatements, hts, rfl⟩ :=
    sound_statementsUntil (soundStatement_statement _) hbody
  rw [hts]
  match body, hstatements with
  | [], hstatements => exact .several hstatements (by simp) hlast
  | [(w, t)], hstatements => simpa [collapse] using Derives.one (hstatements (w, t) (by simp)) hlast
  | p :: q :: body, hstatements => exact .several hstatements (by simp) hlast

/-! ### Completeness of expressions -/

/-- The kinds with which an expression of a level can begin. -/
def Level.firsts : Level → List Kind
  | primary => [.int, .string, .kwTrue, .kwFalse, .ident, .lparen]
  | _ => [.int, .string, .kwTrue, .kwFalse, .ident, .lparen, .minus, .plus, .bang]

/-- The operators of a level and of all that bind tighter. An expression of the
level would go on with any of these. -/
def Level.reach : Level → List Kind
  | equality => [.equal, .notEqual, .less, .lessEqual, .greater, .greaterEqual, .plus, .minus,
      .star, .slash]
  | comparison => [.less, .lessEqual, .greater, .greaterEqual, .plus, .minus, .star, .slash]
  | additive => [.plus, .minus, .star, .slash]
  | multiplicative => [.star, .slash]
  | unary | primary => []

theorem Level.firsts_tighter_subset (level : Level) : level.tighter.firsts ⊆ level.firsts := by
  cases level <;> decide

theorem Expression.exists_cons {level : Level} {w : List Token} {e : Tree}
    (h : Expression level w e) : ∃ t w', w = t :: w' ∧ t.kind ∈ level.firsts := by
  induction h with
  | @literal t ht =>
      have hsub : [.int, .string, .kwTrue, .kwFalse, .ident] ⊆ Level.primary.firsts := by decide
      exact ⟨t, [], rfl, hsub ht⟩
  | @group l r w e hl _ _ _ => exact ⟨l, w ++ [r], rfl, by simp [hl, Level.firsts]⟩
  | @sign op w e hop _ _ =>
      have hsub : [.minus, .plus, .bang] ⊆ Level.unary.firsts := by decide
      exact ⟨op, w, rfl, hsub hop⟩
  | @single level w e _ ih =>
      obtain ⟨t, w', rfl, ht⟩ := ih
      exact ⟨t, w', rfl, level.firsts_tighter_subset ht⟩
  | @chain level op v w a b _ _ _ iha _ =>
      obtain ⟨t, v', rfl, ht⟩ := iha
      exact ⟨t, v' ++ op :: w, rfl, ht⟩

theorem nextIn_of_subset {ks ks' : List Kind} {ts : List Token} (hsub : ks ⊆ ks')
    (h : nextIn ks' ts = false) : nextIn ks ts = false := by
  cases ts with
  | nil => rfl
  | cons t ts =>
      have ht : t.kind ∉ ks' := by simpa [nextIn] using h
      have ht' : t.kind ∉ ks := fun hmem => ht (hsub hmem)
      simp [nextIn, ht']

theorem Level.operators_subset_reach (level : Level) : level.operators ⊆ level.reach := by
  cases level <;> decide

theorem Level.reach_tighter_subset (level : Level) : level.tighter.reach ⊆ level.reach := by
  cases level <;> decide

theorem nextIn_reach_of_mem_operators {level : Level} {op : Token} {ts : List Token}
    (h : op.kind ∈ level.operators) : nextIn level.tighter.reach (op :: ts) = false := by
  revert h
  simp only [nextIn, decide_eq_false_iff_not]
  generalize op.kind = k
  cases level <;> revert k <;> decide

/-- The parser of each level, with parentheses inside it nested one less deep. -/
def parserAt (bound : Nat) : Level → Parser Tree
  | .primary => primary (expression (bound - 1))
  | .unary => unary (expression (bound - 1))
  | .multiplicative => multiplicative bound (expression (bound - 1))
  | .additive => additive bound (expression (bound - 1))
  | .comparison => comparison bound (expression (bound - 1))
  | .equality => equality bound (expression (bound - 1))

theorem expression_eq_parserAt {bound : Nat} (h : 0 < bound) :
    expression bound = parserAt bound .equality := by
  obtain ⟨n, rfl⟩ : ∃ n, bound = n + 1 := ⟨bound - 1, by omega⟩
  rfl

/-- The parser of the level takes these tokens for this tree, up to the question
whether the chain goes on: it is left looking at the rest with the tree in hand
and rounds enough for all that follows. -/
def CompleteAt (level : Level) (w : List Token) (e : Tree) : Prop :=
  ∀ bound rest, (w ++ rest).length ≤ bound → nextIn level.tighter.reach rest = false →
    ∃ rounds, rest.length ≤ rounds ∧ ∀ r,
      chainFrom level.operators (parserAt bound level.tighter) rounds e rest = .ok r →
        parserAt bound level (w ++ rest) = .ok r

theorem CompleteAt.parserAt_eq {level : Level} {w : List Token} {e : Tree}
    (h : CompleteAt level w e) {bound : Nat} {rest : List Token}
    (hbound : (w ++ rest).length ≤ bound) (hrest : nextIn level.reach rest = false) :
    parserAt bound level (w ++ rest) = .ok (e, rest) := by
  obtain ⟨rounds, -, hchain⟩ :=
    h bound rest hbound (nextIn_of_subset level.reach_tighter_subset hrest)
  exact hchain _ (chainFrom_of_nextIn (nextIn_of_subset level.operators_subset_reach hrest))

/-- At the levels without operators there is nothing to go on with. -/
theorem completeAt_of_operators_eq_nil {level : Level} {w : List Token} {e : Tree}
    (hlevel : level.operators = [])
    (h : ∀ bound rest, (w ++ rest).length ≤ bound →
      parserAt bound level (w ++ rest) = .ok (e, rest)) : CompleteAt level w e := by
  intro bound rest hbound _
  refine ⟨rest.length, Nat.le_refl _, ?_⟩
  intro r hr
  rw [hlevel, chainFrom_of_nextIn (by cases rest <;> simp [nextIn])] at hr
  rw [h bound rest hbound, hr]

theorem completeAt_literal {t : Token}
    (ht : t.kind ∈ [.int, .string, .kwTrue, .kwFalse, .ident]) :
    CompleteAt .primary [t] (.leaf t) := by
  refine completeAt_of_operators_eq_nil rfl ?_
  intro bound rest _
  have hlit : t.kind.isLiteral := by
    revert ht
    generalize t.kind = k
    revert k
    decide
  exact primary_eq_ok_iff.2 (.inl ⟨t, rfl, hlit, rfl⟩)

theorem completeAt_group {l r : Token} {w : List Token} {e : Tree} (hl : l.kind = .lparen)
    (he : CompleteAt .equality w e) (hr : r.kind = .rparen) :
    CompleteAt .primary (l :: w ++ [r]) e := by
  refine completeAt_of_operators_eq_nil rfl ?_
  intro bound rest hbound
  simp only [List.cons_append, List.append_assoc, List.nil_append, List.length_cons,
    List.length_append] at hbound ⊢
  refine primary_eq_ok_iff.2 (.inr ⟨l, r, w ++ r :: rest, rfl, hl, ?_, hr⟩)
  rw [expression_eq_parserAt (by omega)]
  refine he.parserAt_eq ?_ (by simp [nextIn, hr, Level.reach])
  simp only [List.length_append, List.length_cons]
  omega

theorem completeAt_sign {op : Token} {w : List Token} {e : Tree}
    (hop : op.kind ∈ [.minus, .plus, .bang]) (he : CompleteAt .unary w e) :
    CompleteAt .unary (op :: w) (.unary op e) := by
  refine completeAt_of_operators_eq_nil rfl ?_
  intro bound rest hbound
  have hoperand : parserAt bound .unary (w ++ rest) = .ok (e, rest) := by
    refine he.parserAt_eq ?_ (by cases rest <;> simp [nextIn, Level.reach])
    simp only [List.cons_append, List.length_cons] at hbound
    omega
  exact (unary_eq_ok_iff hop).2 ⟨e, hoperand, rfl⟩

/-- The chain levels begin with an operand. -/
theorem completeAt_of_chain {level : Level} {w : List Token} {e : Tree}
    (hlevel : ∀ bound, parserAt bound level =
      chain bound level.operators (parserAt bound level.tighter))
    (he : CompleteAt level.tighter w e) : CompleteAt level w e := by
  intro bound rest hbound hrest
  have hlength : rest.length ≤ bound := by
    rw [List.length_append] at hbound
    omega
  refine ⟨bound, hlength, ?_⟩
  rintro ⟨e', rest'⟩ hr
  rw [hlevel]
  exact chain_eq_ok_iff.2 ⟨e, rest, he.parserAt_eq hbound hrest, hr⟩

theorem completeAt_unary_of_primary {w : List Token} {e : Tree} (hw : Expression .primary w e)
    (he : CompleteAt .primary w e) : CompleteAt .unary w e := by
  refine completeAt_of_operators_eq_nil rfl ?_
  intro bound rest hbound
  have hprimary := he.parserAt_eq hbound (by cases rest <;> simp [nextIn, Level.reach])
  obtain ⟨t, w', rfl, ht⟩ := hw.exists_cons
  have hsign : t.kind ∉ unaryKinds := by
    revert ht
    generalize t.kind = k
    revert k
    decide
  rw [← hprimary]
  exact unary_of_not_mem hsign

theorem completeAt_single {level : Level} {w : List Token} {e : Tree}
    (hw : Expression level.tighter w e) (he : CompleteAt level.tighter w e) :
    CompleteAt level w e := by
  cases level with
  | primary => exact he
  | unary => exact completeAt_unary_of_primary hw he
  | multiplicative => exact completeAt_of_chain (fun _ => rfl) he
  | additive => exact completeAt_of_chain (fun _ => rfl) he
  | comparison => exact completeAt_of_chain (fun _ => rfl) he
  | equality => exact completeAt_of_chain (fun _ => rfl) he

theorem completeAt_chain {level : Level} {op : Token} {v w : List Token} {a b : Tree}
    (ha : CompleteAt level v a) (hop : op.kind ∈ level.operators)
    (hb : CompleteAt level.tighter w b) : CompleteAt level (v ++ op :: w) (.binary op a b) := by
  intro bound rest hbound hrest
  rw [List.append_assoc, List.cons_append] at hbound ⊢
  obtain ⟨rounds, hrounds, hchain⟩ :=
    ha bound (op :: (w ++ rest)) hbound (nextIn_reach_of_mem_operators hop)
  simp only [List.length_cons, List.length_append] at hrounds hbound
  obtain ⟨n, rfl⟩ : ∃ n, rounds = n + 1 := ⟨rounds - 1, by omega⟩
  have hoperand : parserAt bound level.tighter (w ++ rest) = .ok (b, rest) := by
    refine hb.parserAt_eq ?_ hrest
    rw [List.length_append]
    omega
  refine ⟨n, by omega, ?_⟩
  rintro ⟨e', rest'⟩ hr
  exact hchain _ ((chainFrom_eq_ok_iff hop).2 ⟨b, rest, hoperand, hr⟩)

theorem completeAt_of_expression {level : Level} {w : List Token} {e : Tree}
    (h : Expression level w e) : CompleteAt level w e := by
  induction h with
  | literal ht => exact completeAt_literal ht
  | group hl _ hr ih => exact completeAt_group hl ih hr
  | sign hop _ ih => exact completeAt_sign hop ih
  | single hw ih => exact completeAt_single hw ih
  | chain _ hop _ iha ihb => exact completeAt_chain iha hop ihb

/-- An expression is parsed up to a token that cannot go on with it. -/
theorem expression_of_derivation {w : List Token} {e : Tree} (h : Expression .equality w e)
    {bound : Nat} {next : Token} {rest : List Token}
    (hbound : (w ++ next :: rest).length ≤ bound) (hnext : next.kind ∉ Level.equality.reach) :
    expression bound (w ++ next :: rest) = .ok (e, next :: rest) := by
  have hpos : 0 < bound := by
    simp only [List.length_append, List.length_cons] at hbound
    omega
  rw [expression_eq_parserAt hpos]
  exact (completeAt_of_expression h).parserAt_eq hbound (by simp [nextIn, hnext])

/-! ### Completeness of statements -/

theorem Statement.exists_cons {form : Form} {w : List Token} {t : Tree}
    (h : Statement form w t) : ∃ u w', w = u :: w' ∧ u.kind ∉ [.rbrace, .eof] := by
  have hfirst : ∀ {level w e}, Expression level w e →
      ∃ u w', w = u :: w' ∧ u.kind ∉ [.rbrace, .eof] := by
    intro level w e he
    obtain ⟨u, w', rfl, hu⟩ := he.exists_cons
    refine ⟨u, w', rfl, ?_⟩
    revert hu
    generalize u.kind = k
    cases level <;> revert k <;> decide
  induction h with
  | declare hkw _ _ => exact ⟨_, _, rfl, by simp [hkw]⟩
  | define hkw _ _ _ _ => exact ⟨_, _, rfl, by simp [hkw]⟩
  | block hl _ _ => exact ⟨_, _, rfl, by simp [hl]⟩
  | ofBlock _ ih => exact ih
  | simple hk hkw _ _ =>
      refine ⟨_, _, rfl, ?_⟩
      rw [hkw]
      cases hk <;> decide
  | conditional hk hkw _ _ _ _ _ =>
      refine ⟨_, _, rfl, ?_⟩
      rw [hkw]
      cases hk <;> decide
  | expression he _ =>
      obtain ⟨u, w', rfl, hu⟩ := hfirst he
      exact ⟨u, _, rfl, hu⟩
  | assign hname _ _ _ _ =>
      obtain ⟨u, w', rfl, hu⟩ := hfirst hname
      exact ⟨u, _, rfl, hu⟩

/-- The parser of each form, with blocks inside it nested one less deep. -/
def formParser (bound : Nat) : Form → Parser Tree
  | .block => block bound (statement (bound - 1))
  | .statement => statement bound

theorem statementsUntil_of_derivation {stops : List Kind} {p : Parser Tree} {bound : Nat}
    {body : List (List Token × Tree)} {next : Token} {rest : List Token}
    (hparse : ∀ q ∈ body, ∀ rest, (q.1 ++ rest).length ≤ bound →
      p (q.1 ++ rest) = .ok (q.2, rest))
    (hstart : ∀ q ∈ body, ∃ u w', q.1 = u :: w' ∧ u.kind ∉ stops) (hstop : next.kind ∈ stops)
    (hbound : (body.flatMap Prod.fst ++ next :: rest).length ≤ bound) {rounds : Nat}
    (hrounds : (body.flatMap Prod.fst ++ next :: rest).length ≤ rounds) :
    statementsUntil stops p rounds (body.flatMap Prod.fst ++ next :: rest) =
      .ok (body.map Prod.snd, next :: rest) := by
  induction body generalizing rounds with
  | nil => exact statementsUntil_of_nextIn (by simp [nextIn, hstop])
  | cons q body ih =>
      obtain ⟨w, t⟩ := q
      obtain ⟨u, w', rfl, hu⟩ := hstart (w, t) (by simp)
      simp only [List.flatMap_cons, List.append_assoc] at hbound hrounds ⊢
      have hfirst := hparse _ (List.mem_cons_self ..) _ hbound
      rw [List.length_append, List.length_cons] at hbound hrounds
      obtain ⟨n, rfl⟩ : ∃ n, rounds = n + 1 := ⟨rounds - 1, by omega⟩
      have htail := ih (fun q hq => hparse q (by simp [hq])) (fun q hq => hstart q (by simp [hq]))
        (by omega) (show _ ≤ n by omega)
      exact (statementsUntil_eq_ok_iff (by simp [nextIn, hu])).2 ⟨t, _, _, hfirst, htail, rfl⟩

theorem statement_of_mem_firsts {n : Nat} {t : Token} {ts : List Token}
    (h : t.kind ∈ Level.equality.firsts) :
    statement (n + 1) (t :: ts) = expressionStatement (n + 1) (t :: ts) := by
  rw [statement_cons]
  revert h
  generalize t.kind = k
  intro h
  cases k <;> first | rfl | exact absurd h (by decide)

theorem formParser_of_derivation {form : Form} {w : List Token} {t : Tree}
    (h : Statement form w t) {bound : Nat} {rest : List Token}
    (hbound : (w ++ rest).length ≤ bound) : formParser bound form (w ++ rest) = .ok (t, rest) := by
  obtain ⟨n, rfl⟩ : ∃ n, bound = n + 1 := by
    obtain ⟨u, w', rfl, -⟩ := h.exists_cons
    simp only [List.cons_append, List.length_cons] at hbound
    exact ⟨bound - 1, by omega⟩
  induction h generalizing n rest with
  | @declare kw name semi hkw hname hsemi =>
      simp only [formParser, List.cons_append, List.nil_append, statement_cons, hkw]
      exact declaration_eq_ok_iff.2 ⟨kw, name, hkw, hname, .inl ⟨semi, rfl, hsemi, rfl⟩⟩
  | @define kw name mark semi w e hkw hname hmark he hsemi =>
      simp only [List.cons_append, List.append_assoc, List.nil_append, List.length_cons] at hbound
      -- No operator begins with what closes an expression, here as in all cases below.
      have hinit : expression (n + 1) (w ++ semi :: rest) = .ok (e, semi :: rest) :=
        expression_of_derivation he (by omega) (by rw [hsemi]; decide)
      simp only [formParser, List.cons_append, List.append_assoc, List.nil_append,
        statement_cons, hkw]
      exact declaration_eq_ok_iff.2 ⟨kw, name, hkw, hname,
        .inr ⟨mark, _, e, semi, rfl, hmark, hinit, hsemi, rfl⟩⟩
  | @block l r body hl hbody hr ih =>
      simp only [List.cons_append, List.append_assoc, List.nil_append, List.length_cons] at hbound
      simp only [formParser, List.cons_append, List.append_assoc, List.nil_append]
      refine block_eq_ok_iff.2 ⟨l, _, _, r, rfl, hl, ?_, hr, rfl⟩
      refine statementsUntil_of_derivation ?_ (fun q hq => (hbody q hq).exists_cons)
        (by rw [hr]; decide) (Nat.le_of_succ_le_succ hbound) (by omega)
      -- A statement takes a token at least, so there is a level left for it.
      intro q hq rest' hlength
      obtain ⟨u, w', hw, -⟩ := (hbody q hq).exists_cons
      obtain ⟨m, rfl⟩ : ∃ m, n = m + 1 := by
        simp only [hw, List.cons_append, List.length_cons] at hlength
        exact ⟨n - 1, by omega⟩
      exact ih q hq m hlength
  | @ofBlock w t h ih =>
      have hblock : block (n + 1) (statement n) (w ++ rest) = .ok (t, rest) := ih n hbound
      cases h with
      | block hl _ _ =>
          simp only [formParser, List.cons_append, statement_cons, hl]
          exact hblock
  | @simple k make kw semi w e hk hkw he hsemi =>
      simp only [List.cons_append, List.append_assoc, List.nil_append, List.length_cons] at hbound
      have harg : expression (n + 1) (w ++ semi :: rest) = .ok (e, semi :: rest) :=
        expression_of_derivation he (by omega) (by rw [hsemi]; decide)
      have hsimple : keywordStatement k make (n + 1) (kw :: (w ++ semi :: rest)) =
          .ok (make e, rest) :=
        keywordStatement_eq_ok_iff.2 ⟨kw, _, e, semi, rfl, hkw, harg, hsemi, rfl⟩
      simp only [formParser, List.cons_append, List.append_assoc, List.nil_append,
        statement_cons, hkw]
      cases hk <;> exact hsimple
  | @conditional k make kw l r v w e t hk hkw hl he hr ht ih =>
      simp only [List.cons_append, List.append_assoc, List.length_cons] at hbound
      have hcond : expression (n + 1) (v ++ r :: (w ++ rest)) = .ok (e, r :: (w ++ rest)) :=
        expression_of_derivation he (by omega) (by rw [hr]; decide)
      have hblock : block (n + 1) (statement n) (w ++ rest) = .ok (t, rest) := by
        refine ih n ?_
        simp only [List.length_append, List.length_cons] at hbound ⊢
        omega
      have hconditional : conditional k make (n + 1) (statement n)
          (kw :: l :: (v ++ r :: (w ++ rest))) = .ok (make e t, rest) :=
        conditional_eq_ok_iff.2 ⟨kw, l, _, e, r, _, t, rfl, hkw, hl, hcond, hr, hblock, rfl⟩
      simp only [formParser, List.cons_append, List.append_assoc, statement_cons, hkw]
      cases hk <;> exact hconditional
  | @expression semi w e he hsemi =>
      simp only [List.append_assoc, List.cons_append, List.nil_append] at hbound ⊢
      have hexpr : expression (n + 1) (w ++ semi :: rest) = .ok (e, semi :: rest) :=
        expression_of_derivation he hbound (by rw [hsemi]; decide)
      obtain ⟨u, w', rfl, hu⟩ := he.exists_cons
      refine (statement_of_mem_firsts hu).trans (expressionStatement_eq_ok_iff.2 ⟨semi, ?_, hsemi⟩)
      exact assignment_eq_ok_iff.2 (.inl ⟨hexpr, by simp [nextIn, hsemi]⟩)
  | @assign name mark semi v w e hname hident hmark he hsemi =>
      simp only [List.append_assoc, List.cons_append, List.nil_append] at hbound ⊢
      have htarget : expression (n + 1) (v ++ mark :: (w ++ semi :: rest)) =
          .ok (.leaf name, mark :: (w ++ semi :: rest)) :=
        expression_of_derivation hname hbound (by rw [hmark]; decide)
      have hvalue : expression (n + 1) (w ++ semi :: rest) = .ok (e, semi :: rest) := by
        refine expression_of_derivation he ?_ (by rw [hsemi]; decide)
        simp only [List.length_append, List.length_cons] at hbound ⊢
        omega
      obtain ⟨u, v', rfl, hu⟩ := hname.exists_cons
      refine (statement_of_mem_firsts hu).trans (expressionStatement_eq_ok_iff.2 ⟨semi, ?_, hsemi⟩)
      exact assignment_eq_ok_iff.2
        (.inr ⟨name, mark, _, e, htarget, hident, hmark, hvalue, rfl⟩)

/-- A program that is derived is parsed. -/
theorem ofTokens_of_derives {ts : List Token} {t : Tree} (h : Derives ts t) :
    Tree.ofTokens ts = .ok t := by
  -- One statement or several, the statements are found alike; the forms differ in
  -- what becomes of them.
  have hprogram : ∀ {body : List (List Token × Tree)} {last : Token},
      (∀ p ∈ body, Statement .statement p.1 p.2) → last.kind = .eof →
      Tree.ofTokens (body.flatMap Prod.fst ++ [last]) = .ok (collapse (body.map Prod.snd)) := by
    intro body last hbody hlast
    refine Tree.ofTokens_eq_ok_iff.2 ⟨⟨last, by simp, hlast⟩, [], ?_⟩
    refine program_eq_ok_iff.2 ⟨_, last, ?_, hlast, rfl, rfl⟩
    refine statementsUntil_of_derivation ?_ ?_ (by rw [hlast]; decide) (Nat.le_refl _)
      (Nat.le_refl _)
    · intro q hq rest hlength
      exact formParser_of_derivation (hbody q hq) hlength
    · intro q hq
      obtain ⟨u, w', hw, hu⟩ := (hbody q hq).exists_cons
      exact ⟨u, w', hw, fun hmem => hu (List.mem_cons_of_mem _ hmem)⟩
  cases h with
  | @one w t last ht hlast =>
      have hone := @hprogram [(w, t)] last (by simpa using ht) hlast
      simpa [collapse] using hone
  | @several body last hbody hlength hlast =>
      rw [hprogram hbody hlast]
      match body, hlength with
      | [], _ => rfl
      | [_], hlength => exact absurd rfl hlength
      | _ :: _ :: _, _ => rfl

end Grammar

open Grammar

/-- Parsing accepts exactly the programs of the grammar and gives exactly their
trees, whatever the tokens are; so a list of tokens is a program in one way at
most. -/
theorem ofTokens_eq_ok_iff_derives (ts : List Token) (t : Tree) :
    (Tree.ofTokens ts = .ok t ↔ Derives ts t) ∧ (∀ u, Derives ts t → Derives ts u → t = u) := by
  refine ⟨⟨derives_of_ofTokens, ofTokens_of_derives⟩, ?_⟩
  intro u ht hu
  have hparse := ofTokens_of_derives ht
  rw [ofTokens_of_derives hu] at hparse
  cases hparse
  rfl

theorem derives_subtraction_assigned :
    let a : Token := ⟨.ident, 1, some (.str "a")⟩
    let minus (line : Nat) : Token := ⟨.minus, line, none⟩
    let number (n : Int64) : Token := ⟨.int, 2, some (.int n)⟩
    let ts : List Token := [⟨.lparen, 1, none⟩, a, ⟨.rparen, 1, none⟩, ⟨.assign, 1, none⟩, number 8,
      minus 2, number 3, minus 3, number 2, ⟨.semi, 3, none⟩, ⟨.eof, 3, none⟩]
    let t : Tree := .assign a (.binary (minus 3)
      (.binary (minus 2) (.leaf (number 8)) (.leaf (number 3))) (.leaf (number 2)))
    Derives ts t ∧ ∀ u, Derives ts u → t = u := by
  intro a minus number ts t
  obtain ⟨hiff, hunique⟩ := ofTokens_eq_ok_iff_derives ts t
  have hderives : Derives ts t := hiff.1 rfl
  exact ⟨hderives, fun u => hunique u hderives⟩

end Quill
