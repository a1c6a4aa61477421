import Quill.Proofs.Grammar

/-!
Where an expression goes wrong. Tokens that are no expression go wrong at one
definite token: what comes before it is the beginning of some expression, and
together with it of none.

`ExpressionStuck` describes how this happens, rule by rule: some tokens begin an
expression, and the token behind them cannot come next. Three things are shown of
it. A parser that fails does so in one of these ways; in each of them the tokens
before can be completed; and in each of them the parser fails with the same fault
whatever comes later, so that nothing can be accepted from there on.

The tokens must close with an end mark. Parsers take no end mark along the way, so
they never run out of tokens, and every fault has a token to point at.
-/

namespace Quill

/-- The fault of finding this token where something else belongs. -/
def Token.blame (t : Token) (e : Expected) : Fault := .parse e (some t.text) t.line

/-- A token of this kind to complete a program with, on no line in particular. -/
def Token.ofKind (k : Kind) : Token := ⟨k, 0, none⟩

@[simp] theorem Token.kind_ofKind (k : Kind) : (Token.ofKind k).kind = k := rfl

namespace Grammar

open Quill.Parser

/-! ### End marks -/

/-- The tokens close with an end mark. -/
def Ended (ts : List Token) : Prop := ∃ us last, ts = us ++ [last] ∧ last.kind = .eof

theorem Ended.exists_cons {ts : List Token} (h : Ended ts) : ∃ t us, ts = t :: us := by
  obtain ⟨us, last, rfl, -⟩ := h
  cases us with
  | nil => exact ⟨last, [], rfl⟩
  | cons t us => exact ⟨t, us ++ [last], rfl⟩

/-- Taking tokens that are no end marks leaves the last one in place. -/
theorem Ended.of_append {w rest : List Token} (h : Ended (w ++ rest))
    (hw : ∀ t ∈ w, t.kind ≠ .eof) : Ended rest := by
  obtain ⟨us, last, heq, hlast⟩ := h
  rcases List.eq_nil_or_concat rest with rfl | ⟨rs, r, rfl⟩
  · rw [List.append_nil] at heq
    exact absurd hlast (hw last (by simp [heq]))
  · rw [List.concat_eq_append, ← List.append_assoc] at heq
    obtain ⟨-, hr⟩ := List.append_inj' heq rfl
    cases hr
    exact ⟨rs, last, List.concat_eq_append .., hlast⟩

theorem Ended.of_cons {t : Token} {ts : List Token} (h : Ended (t :: ts))
    (ht : t.kind ≠ .eof) : Ended ts :=
  Ended.of_append (w := [t]) h (by simpa using ht)

theorem Ended.drop {ts : List Token} (h : Ended ts) {i : Nat} (hi : i < ts.length) :
    Ended (ts.drop i) := by
  obtain ⟨us, last, rfl, hlast⟩ := h
  rw [List.length_append, List.length_singleton] at hi
  exact ⟨us.drop i, last, List.drop_append_of_le_length (by omega), hlast⟩

theorem Expression.kind_ne_eof {level : Level} {w : List Token} {e : Tree}
    (h : Expression level w e) : ∀ t ∈ w, t.kind ≠ .eof := by
  induction h with
  | literal ht =>
      rw [List.forall_mem_singleton]
      intro heof
      rw [heof] at ht
      exact absurd ht (by decide)
  | group hl _ hr ih =>
      rw [List.cons_append, List.forall_mem_cons, List.forall_mem_append,
        List.forall_mem_singleton, hl, hr]
      exact ⟨by decide, ih, by decide⟩
  | @sign op w e hop _ ih =>
      rw [List.forall_mem_cons]
      refine ⟨?_, ih⟩
      intro heof
      rw [heof] at hop
      exact absurd hop (by decide)
  | single _ ih => exact ih
  | @chain level op v w a b _ hop _ iha ihb =>
      rw [List.forall_mem_append, List.forall_mem_cons]
      refine ⟨iha, ?_, ihb⟩
      intro heof
      rw [heof] at hop
      cases level <;> exact absurd hop (by decide)

theorem Statement.kind_ne_eof {form : Form} {w : List Token} {t : Tree}
    (h : Statement form w t) : ∀ u ∈ w, u.kind ≠ .eof := by
  induction h with
  | declare hkw hname hsemi => simp [hkw, hname, hsemi]
  | define hkw hname hmark he hsemi =>
      simpa [hkw, hname, hmark, hsemi, or_imp, forall_and] using he.kind_ne_eof
  | @block l r body hl _ hr ih =>
      intro u hu
      simp only [List.cons_append, List.mem_cons, List.mem_append, List.mem_flatMap,
        List.not_mem_nil, or_false] at hu
      rcases hu with rfl | ⟨p, hp, hu⟩ | rfl
      · simp [hl]
      · exact ih p hp u hu
      · simp [hr]
  | ofBlock _ ih => exact ih
  | simple hk hkw he hsemi =>
      have hne := he.kind_ne_eof
      cases hk <;> simpa [hkw, hsemi, or_imp, forall_and] using hne
  | conditional hk hkw hl he hr _ ih =>
      have hne := he.kind_ne_eof
      cases hk <;> simpa [hkw, hl, hr, or_imp, forall_and] using ⟨hne, ih⟩
  | expression he hsemi => simpa [hsemi, or_imp, forall_and] using he.kind_ne_eof
  | assign hname _ hmark he hsemi =>
      simpa [hmark, hsemi, or_imp, forall_and] using ⟨hname.kind_ne_eof, he.kind_ne_eof⟩

/-! ### Expressions that go wrong -/

/-- The tokens begin an expression of the level, and the token behind them cannot
come next. Either no expression can begin with it, be it at the start, in
parentheses or as an operand, or parentheses ought to close. -/
inductive ExpressionStuck : Level → List Token → Token → Expected → Prop
  | start {t : Token} (ht : t.kind ∉ Level.equality.firsts) :
      ExpressionStuck .primary [] t .expression
  | group {l t : Token} {u : List Token} {e : Expected} (hl : l.kind = .lparen)
      (h : ExpressionStuck .equality u t e) : ExpressionStuck .primary (l :: u) t e
  | unclosed {l t : Token} {w : List Token} {a : Tree} (hl : l.kind = .lparen)
      (ha : Expression .equality w a) (hreach : t.kind ∉ Level.equality.reach)
      (ht : t.kind ≠ .rparen) : ExpressionStuck .primary (l :: w) t (.kind .rparen)
  | sign {op t : Token} {u : List Token} {e : Expected} (hop : op.kind ∈ unaryKinds)
      (h : ExpressionStuck .unary u t e) : ExpressionStuck .unary (op :: u) t e
  | single {level : Level} {t : Token} {u : List Token} {e : Expected}
      (h : ExpressionStuck level.tighter u t e) : ExpressionStuck level u t e
  | operand {level : Level} {op t : Token} {w u : List Token} {a : Tree} {e : Expected}
      (ha : Expression level w a) (hop : op.kind ∈ level.operators)
      (h : ExpressionStuck level.tighter u t e) : ExpressionStuck level (w ++ op :: u) t e

/-- What has been taken can be completed. -/
theorem ExpressionStuck.viable {level : Level} {u : List Token} {t : Token} {e : Expected}
    (h : ExpressionStuck level u t e) : ∃ x a, Expression level (u ++ x) a := by
  induction h with
  | start _ => exact ⟨[.ofKind .kwTrue], _, .literal (by simp)⟩
  | group hl _ ih =>
      obtain ⟨x, a, ha⟩ := ih
      refine ⟨x ++ [.ofKind .rparen], a, ?_⟩
      simpa using Expression.group hl ha (Token.kind_ofKind .rparen)
  | unclosed hl ha _ _ => exact ⟨[.ofKind .rparen], _, .group hl ha rfl⟩
  | sign hop _ ih =>
      obtain ⟨x, a, ha⟩ := ih
      exact ⟨x, _, .sign hop ha⟩
  | single _ ih =>
      obtain ⟨x, a, ha⟩ := ih
      exact ⟨x, a, .single ha⟩
  | operand ha hop _ ih =>
      obtain ⟨x, b, hb⟩ := ih
      exact ⟨x, _, by simpa using Expression.chain ha hop hb⟩

/-! ### What a parsed expression leaves

An expression is taken as far as it goes, so an operator that could prolong it is
never left behind. -/

theorem nextIn_append {ks ks' : List Kind} {ts : List Token} :
    nextIn (ks ++ ks') ts = (nextIn ks ts || nextIn ks' ts) := by
  cases ts <;> simp [nextIn]

theorem Level.reach_subset (level : Level) :
    level.reach ⊆ level.operators ++ level.tighter.reach := by
  cases level <;> decide

theorem soundAt_parserAt (bound : Nat) (level : Level) : SoundAt level (parserAt bound level) := by
  have hinner := soundAt_expression (bound - 1)
  have hmul : SoundAt .multiplicative (parserAt bound .multiplicative) :=
    soundAt_chain (soundAt_unary hinner)
  have hadd : SoundAt .additive (parserAt bound .additive) := soundAt_chain hmul
  have hcmp : SoundAt .comparison (parserAt bound .comparison) := soundAt_chain hadd
  cases level with
  | primary => exact soundAt_primary hinner
  | unary => exact soundAt_unary hinner
  | multiplicative => exact hmul
  | additive => exact hadd
  | comparison => exact hcmp
  | equality => exact soundAt_chain hcmp

/-- The parser of the level leaves no operator of the level or a tighter one. -/
def Exhausts (bound : Nat) (level : Level) : Prop :=
  ∀ ts a rest, ts.length ≤ bound → parserAt bound level ts = .ok (a, rest) →
    nextIn level.reach rest = false

theorem nextIn_chainFrom {level : Level} {bound n : Nat} (h : Exhausts bound level.tighter)
    {left a : Tree} {ts rest : List Token} (hn : ts.length ≤ n) (hbound : ts.length ≤ bound)
    (hts : nextIn level.tighter.reach ts = false)
    (hok : chainFrom level.operators (parserAt bound level.tighter) n left ts = .ok (a, rest)) :
    nextIn level.reach rest = false := by
  have hstop {ts : List Token} (hop : nextIn level.operators ts = false)
      (htight : nextIn level.tighter.reach ts = false) : nextIn level.reach ts = false := by
    refine nextIn_of_subset level.reach_subset ?_
    rw [nextIn_append, hop, htight]
    rfl
  induction n generalizing left ts with
  | zero =>
      obtain rfl : ts = [] := List.length_eq_zero_iff.1 (by omega)
      cases hok
      rfl
  | succ n ih =>
      cases hnext : nextIn level.operators ts with
      | false =>
          rw [chainFrom_of_nextIn hnext] at hok
          cases hok
          exact hstop hnext hts
      | true =>
          obtain ⟨op, us, rfl, hop⟩ := nextIn_eq_true_iff.1 hnext
          obtain ⟨right, mid, hright, htail⟩ := (chainFrom_eq_ok_iff hop).1 hok
          obtain ⟨w, rfl, -⟩ := soundAt_parserAt bound level.tighter _ _ _ hright
          simp only [List.length_cons, List.length_append] at hn hbound
          have hmid := h _ _ _ (by rw [List.length_append]; omega) hright
          exact ih (by omega) (by omega) hmid htail

theorem exhausts_chain {level : Level} {bound : Nat}
    (hlevel : parserAt bound level = chain bound level.operators (parserAt bound level.tighter))
    (h : Exhausts bound level.tighter) : Exhausts bound level := by
  intro ts a rest hbound hok
  rw [hlevel] at hok
  obtain ⟨left, mid, hleft, htail⟩ := chain_eq_ok_iff.1 hok
  have hmid := h ts left mid hbound hleft
  obtain ⟨w, rfl, -⟩ := soundAt_parserAt bound level.tighter _ _ _ hleft
  rw [List.length_append] at hbound
  exact nextIn_chainFrom h (by omega) (by omega) hmid htail

theorem exhausts_parserAt (bound : Nat) (level : Level) : Exhausts bound level := by
  have hunary : Exhausts bound .unary := fun _ _ rest _ _ => by cases rest <;> rfl
  have hmul : Exhausts bound .multiplicative := exhausts_chain rfl hunary
  have hadd : Exhausts bound .additive := exhausts_chain rfl hmul
  have hcmp : Exhausts bound .comparison := exhausts_chain rfl hadd
  cases level with
  | primary => exact fun _ _ rest _ _ => by cases rest <;> rfl
  | unary => exact hunary
  | multiplicative => exact hmul
  | additive => exact hadd
  | comparison => exact hcmp
  | equality => exact exhausts_chain rfl hcmp

/-- An expression is taken from the tokens up to one that cannot go on with it. -/
theorem exists_of_expression {bound : Nat} {ts rest : List Token} {a : Tree}
    (hbound : ts.length ≤ bound) (hended : Ended ts) (hok : expression bound ts = .ok (a, rest)) :
    ∃ w t v, ts = w ++ t :: v ∧ rest = t :: v ∧ Expression .equality w a ∧
      t.kind ∉ Level.equality.reach ∧ Ended (t :: v) := by
  obtain ⟨w, rfl, ha⟩ := soundAt_expression bound _ _ _ hok
  have hrest : Ended rest := hended.of_append ha.kind_ne_eof
  obtain ⟨t, v, rfl⟩ := hrest.exists_cons
  have hpos : 0 < bound := by
    rw [List.length_append, List.length_cons] at hbound
    omega
  rw [expression_eq_parserAt hpos] at hok
  have hreach := exhausts_parserAt bound .equality _ _ _ hbound hok
  exact ⟨w, t, v, rfl, rfl, ha, by simpa [nextIn] using hreach, hrest⟩

/-! ### Failing to parse an expression -/

/-- The fault reports a way in which these tokens get stuck. -/
def FailsAt (level : Level) (ts : List Token) (f : Fault) : Prop :=
  ∃ u t v e, ts = u ++ t :: v ∧ ExpressionStuck level u t e ∧ f = t.blame e

theorem FailsAt.single {level : Level} {ts : List Token} {f : Fault}
    (h : FailsAt level.tighter ts f) : FailsAt level ts f := by
  obtain ⟨u, t, v, e, hts, hstuck, hf⟩ := h
  exact ⟨u, t, v, e, hts, .single hstuck, hf⟩

/-- The parser of the level fails in these ways only. -/
def Located (bound : Nat) (level : Level) : Prop :=
  ∀ ts f, ts.length ≤ bound → Ended ts → parserAt bound level ts = .error f → FailsAt level ts f

section

variable {bound : Nat}
  (hinner : ∀ ts f, ts.length ≤ bound - 1 → Ended ts → expression (bound - 1) ts = .error f →
    FailsAt .equality ts f)

include hinner

theorem failsAt_primary {t : Token} {ts : List Token} {f : Fault} (ht : t.kind ∉ unaryKinds)
    (hbound : (t :: ts).length ≤ bound) (hended : Ended (t :: ts))
    (h : primary (expression (bound - 1)) (t :: ts) = .error f) : FailsAt .primary (t :: ts) f := by
  rw [List.length_cons] at hbound
  by_cases hlit : t.kind.isLiteral
  · rw [primary_of_isLiteral hlit] at h
    cases h
  by_cases hparen : t.kind = .lparen
  · have hmid : Ended ts := hended.of_cons (by rw [hparen]; decide)
    rw [primary_of_lparen hparen, bind_eq_error_iff] at h
    rcases h with herr | ⟨a, mid, hok, h⟩
    · obtain ⟨u, t', v, e, rfl, hstuck, rfl⟩ := hinner ts f (by omega) hmid herr
      exact ⟨t :: u, t', v, e, rfl, .group hparen hstuck, rfl⟩
    · obtain ⟨w, s, v, rfl, rfl, ha, hreach, -⟩ := exists_of_expression (by omega) hmid hok
      by_cases hs : s.kind = .rparen
      · rw [bind_of_ok (expect_eq_ok_iff.2 ⟨rfl, hs⟩)] at h
        cases h
      · rw [bind_of_error (expect_of_ne hs v)] at h
        cases h
        exact ⟨t :: w, s, v, _, rfl, .unclosed hparen ha hreach hs, rfl⟩
  · rw [primary, if_neg hlit, if_neg hparen] at h
    cases h
    refine ⟨[], t, ts, .expression, rfl, .start ?_, rfl⟩
    revert ht hlit hparen
    cases t.kind <;> decide

theorem located_unary : Located bound .unary := by
  intro ts
  induction ts with
  | nil =>
      intro f _ hended _
      obtain ⟨t, us, heq⟩ := hended.exists_cons
      cases heq
  | cons t ts ih =>
      intro f hbound hended h
      by_cases ht : t.kind ∈ unaryKinds
      · have hne : t.kind ≠ .eof := by
          intro heof
          rw [heof] at ht
          exact absurd ht (by decide)
        rw [List.length_cons] at hbound
        rw [parserAt, unary_of_mem ht, bind_eq_error_iff] at h
        rcases h with herr | ⟨a, mid, -, h⟩
        · obtain ⟨u, t', v, e, rfl, hstuck, rfl⟩ := ih f (by omega) (hended.of_cons hne) herr
          exact ⟨t :: u, t', v, e, rfl, .sign ht hstuck, rfl⟩
        · cases h
      · rw [parserAt, unary_of_not_mem ht] at h
        have hprimary : FailsAt Level.unary.tighter (t :: ts) f :=
          failsAt_primary hinner ht hbound hended h
        exact hprimary.single

end

/-- The operands that a chain has taken already are the left end of what it has
taken when it fails. -/
theorem failsAt_chainFrom {level : Level} {bound n : Nat} (hnext : Located bound level.tighter)
    {w ts : List Token} {left : Tree} {f : Fault} (hleft : Expression level w left)
    (hbound : ts.length ≤ bound) (hended : Ended ts)
    (h : chainFrom level.operators (parserAt bound level.tighter) n left ts = .error f) :
    FailsAt level (w ++ ts) f := by
  induction n generalizing w left ts with
  | zero => cases h
  | succ n ih =>
      cases hops : nextIn level.operators ts with
      | false =>
          rw [chainFrom_of_nextIn hops] at h
          cases h
      | true =>
          obtain ⟨op, us, rfl, hop⟩ := nextIn_eq_true_iff.1 hops
          have hne : op.kind ≠ .eof := by
            intro heof
            rw [heof] at hop
            cases level <;> exact absurd hop (by decide)
          have hus := hended.of_cons hne
          rw [List.length_cons] at hbound
          rw [chainFrom_of_mem hop, bind_eq_error_iff] at h
          rcases h with herr | ⟨right, mid, hok, h⟩
          · obtain ⟨u, t, v, e, rfl, hstuck, rfl⟩ := hnext us f (by omega) hus herr
            exact ⟨w ++ op :: u, t, v, e, by simp, .operand hleft hop hstuck, rfl⟩
          · obtain ⟨w', rfl, hright⟩ := soundAt_parserAt bound level.tighter _ _ _ hok
            rw [List.length_append] at hbound
            have hfails := ih (.chain hleft hop hright) (by omega)
              (hus.of_append hright.kind_ne_eof) h
            simpa using hfails

theorem located_chain {level : Level} {bound : Nat}
    (hlevel : parserAt bound level = chain bound level.operators (parserAt bound level.tighter))
    (hnext : Located bound level.tighter) : Located bound level := by
  intro ts f hbound hended h
  rw [hlevel, chain, bind_eq_error_iff] at h
  rcases h with herr | ⟨left, mid, hok, h⟩
  · exact (hnext ts f hbound hended herr).single
  · obtain ⟨w, rfl, hleft⟩ := soundAt_parserAt bound level.tighter _ _ _ hok
    rw [List.length_append] at hbound
    exact failsAt_chainFrom hnext (.single hleft) (by omega)
      (hended.of_append hleft.kind_ne_eof) h

/-- An expression that is not parsed gets stuck. -/
theorem failsAt_of_expression {bound : Nat} {ts : List Token} {f : Fault}
    (hbound : ts.length ≤ bound) (hended : Ended ts) (h : expression bound ts = .error f) :
    FailsAt .equality ts f := by
  induction bound generalizing ts f with
  | zero =>
      obtain ⟨t, us, rfl⟩ := hended.exists_cons
      simp at hbound
  | succ n ih =>
      have hunary : Located (n + 1) .unary := located_unary fun ts f => ih
      have hmul : Located (n + 1) .multiplicative := located_chain rfl hunary
      have hadd : Located (n + 1) .additive := located_chain rfl hmul
      have hcmp : Located (n + 1) .comparison := located_chain rfl hadd
      have heq : Located (n + 1) .equality := located_chain rfl hcmp
      exact heq ts f hbound hended h

/-! ### Failing whatever follows -/

/-- The parser of the level takes these tokens for this tree, and then the rest
decides: the chain is left with rounds enough for all of it. -/
def Continues (bound : Nat) (level : Level) (w : List Token) (a : Tree) (rest : List Token) :
    Prop :=
  ∃ rounds, rest.length ≤ rounds ∧ parserAt bound level (w ++ rest) =
    chainFrom level.operators (parserAt bound level.tighter) rounds a rest

/-- Without operators the chain is over at once. -/
theorem continues_of_reach_eq_nil {level : Level} {w : List Token} {a : Tree}
    (h : Expression level w a) (hlevel : level.reach = []) {bound : Nat} {rest : List Token}
    (hbound : (w ++ rest).length ≤ bound) : Continues bound level w a rest := by
  have hnone : nextIn level.reach rest = false := by
    rw [hlevel]
    cases rest <;> rfl
  refine ⟨rest.length, Nat.le_refl _, ?_⟩
  rw [chainFrom_of_nextIn (nextIn_of_subset level.operators_subset_reach hnone)]
  exact (completeAt_of_expression h).parserAt_eq hbound hnone

theorem continues_of_expression {level : Level} {w : List Token} {a : Tree}
    (h : Expression level w a) {bound : Nat} {rest : List Token}
    (hbound : (w ++ rest).length ≤ bound) (hrest : nextIn level.tighter.reach rest = false) :
    Continues bound level w a rest := by
  induction h generalizing rest with
  | literal ht => exact continues_of_reach_eq_nil (.literal ht) rfl hbound
  | group hl he hr _ => exact continues_of_reach_eq_nil (.group hl he hr) rfl hbound
  | sign hop he _ => exact continues_of_reach_eq_nil (.sign hop he) rfl hbound
  | @single level w a he _ =>
      have hfirst : parserAt bound level.tighter (w ++ rest) = .ok (a, rest) :=
        (completeAt_of_expression he).parserAt_eq hbound hrest
      have hlength : rest.length ≤ bound := by
        rw [List.length_append] at hbound
        omega
      cases level with
      | primary => exact continues_of_reach_eq_nil he rfl hbound
      | unary => exact continues_of_reach_eq_nil (.single he) rfl hbound
      | _ => exact ⟨bound, hlength, bind_of_ok hfirst⟩
  | @chain level op v w a b _ hop hb iha _ =>
      rw [List.append_assoc, List.cons_append] at hbound
      obtain ⟨rounds, hrounds, hchain⟩ := iha hbound (nextIn_reach_of_mem_operators hop)
      simp only [List.length_cons, List.length_append] at hrounds hbound
      obtain ⟨n, rfl⟩ : ∃ n, rounds = n + 1 := ⟨rounds - 1, by omega⟩
      have hoperand : parserAt bound level.tighter (w ++ rest) = .ok (b, rest) :=
        (completeAt_of_expression hb).parserAt_eq (by rw [List.length_append]; omega) hrest
      refine ⟨n, by omega, ?_⟩
      rw [List.append_assoc, List.cons_append, hchain, chainFrom_of_mem hop, bind_of_ok hoperand]

/-- Without operators in front, the first token of what gets stuck is no sign. -/
theorem ExpressionStuck.exists_cons_of_primary {u : List Token} {t : Token} {e : Expected}
    (h : ExpressionStuck .primary u t e) (v : List Token) :
    ∃ s us, u ++ t :: v = s :: us ∧ s.kind ∉ unaryKinds := by
  generalize hlevel : Level.primary = level at h
  induction h with
  | @start t ht =>
      refine ⟨t, v, rfl, ?_⟩
      revert ht
      cases t.kind <;> decide
  | group hl _ _ => exact ⟨_, _, rfl, by rw [hl]; decide⟩
  | unclosed hl _ _ _ => exact ⟨_, _, rfl, by rw [hl]; decide⟩
  | sign => cases hlevel
  | single _ ih =>
      subst hlevel
      exact ih rfl
  | operand _ hop _ _ =>
      subst hlevel
      cases hop

/-- Once an expression is stuck its parser fails, whatever comes later. -/
theorem ExpressionStuck.parserAt_eq {level : Level} {u : List Token} {t : Token} {e : Expected}
    (h : ExpressionStuck level u t e) {bound : Nat} {v : List Token}
    (hbound : (u ++ t :: v).length ≤ bound) :
    parserAt bound level (u ++ t :: v) = .error (t.blame e) := by
  induction h generalizing bound with
  | @start t ht =>
      have hlit : ¬t.kind.isLiteral := by
        revert ht
        cases t.kind <;> decide
      have hparen : t.kind ≠ .lparen := by
        intro hk
        rw [hk] at ht
        exact absurd ht (by decide)
      rw [List.nil_append, parserAt, primary, if_neg hlit, if_neg hparen]
      rfl
  | @group l t u e hl _ ih =>
      rw [List.cons_append, List.length_cons] at hbound
      have hpos : 0 < bound - 1 := by
        rw [List.length_append, List.length_cons] at hbound
        omega
      have hinner : expression (bound - 1) (u ++ t :: v) = .error (t.blame e) := by
        rw [expression_eq_parserAt hpos]
        exact ih (by omega)
      rw [List.cons_append, parserAt, primary_of_lparen hl, bind_of_error hinner]
  | @unclosed l t w a hl ha hreach ht =>
      rw [List.cons_append, List.length_cons] at hbound
      have hinner : expression (bound - 1) (w ++ t :: v) = .ok (a, t :: v) :=
        expression_of_derivation ha (by omega) hreach
      rw [List.cons_append, parserAt, primary_of_lparen hl, bind_of_ok hinner,
        bind_of_error (expect_of_ne ht v)]
      rfl
  | @sign op t u e hop _ ih =>
      rw [List.cons_append, List.length_cons] at hbound
      have hoperand : unary (expression (bound - 1)) (u ++ t :: v) = .error (t.blame e) :=
        ih (by omega)
      rw [List.cons_append, parserAt, unary_of_mem hop, bind_of_error hoperand]
  | @single level t u e h ih =>
      have hnext := ih hbound
      cases level with
      | primary => exact hnext
      | unary =>
          obtain ⟨s, us, heq, hs⟩ := h.exists_cons_of_primary v
          rw [heq] at hnext ⊢
          exact (unary_of_not_mem hs).trans hnext
      | _ => exact bind_of_error hnext
  | @operand level op t w u a e ha hop _ ih =>
      rw [List.append_assoc, List.cons_append] at hbound ⊢
      obtain ⟨rounds, hrounds, hchain⟩ :=
        continues_of_expression ha hbound (nextIn_reach_of_mem_operators hop)
      simp only [List.length_cons, List.length_append] at hrounds hbound
      obtain ⟨n, rfl⟩ : ∃ n, rounds = n + 1 := ⟨rounds - 1, by omega⟩
      have hoperand := ih (show (u ++ t :: v).length ≤ bound by
        rw [List.length_append, List.length_cons]
        omega)
      rw [hchain, chainFrom_of_mem hop, bind_of_error hoperand]

/-- Once an expression is stuck, parsing fails whatever comes later. -/
theorem ExpressionStuck.expression_eq {u : List Token} {t : Token} {e : Expected}
    (h : ExpressionStuck .equality u t e) {bound : Nat} {v : List Token}
    (hbound : (u ++ t :: v).length ≤ bound) :
    expression bound (u ++ t :: v) = .error (t.blame e) := by
  have hpos : 0 < bound := by
    rw [List.length_append, List.length_cons] at hbound
    omega
  rw [expression_eq_parserAt hpos]
  exact h.parserAt_eq hbound

end Grammar

end Quill
