import Quill.Proofs.ErrorPosition
import Quill.Proofs.TokenMap

/-!
The descent without bounds. The parsers of the grammar carry a bound on nesting and
repetition, and where it is used up they stop. Here it is shown that this never
happens: the bound could be left out, and the descent would still come to an end.

`Returns routine ts r` says what a routine returns when these tokens are left, with
the calls it makes as premises. A loop is a routine that is called once for every
round. Nothing is bounded, so a routine that went on calling for ever would return
nothing. There is no rule for want of tokens either: a routine that looks at the next
token has one to look at.

Whatever a routine takes is derived by the grammar. So a success takes at least one
token and no end mark, and with an end mark to come there are tokens left for the next
call. Every call is then one with fewer tokens, or one at a tighter level with the
same tokens, which is why there is an end to them.
-/

namespace Quill

namespace Parser

/-- Take a token of this kind, and be done. -/
def closing {β : Type} (k : Kind) (b : β) : Parser β := do
  let _ ← expect k
  return b

end Parser

namespace Descent

open Quill.Parser Grammar

/-! ### Routines -/

/-- What a row of statements fills. -/
inductive Region
  | block | program
  deriving DecidableEq, Repr

/-- The kinds at which no further statement is read. -/
def Region.stops : Region → List Kind
  | block => [.rbrace, .eof]
  | program => [.eof]

/-- What is done when no further statement is read. -/
def Region.close : Region → List Tree → Parser Tree
  | block, body => closing .rbrace (.scope body)
  | program, body => do
      let _ ← expect .eof
      match ← get with
      | [] => return collapse body
      | rest => throw (unexpected .nothingMore rest)

/-- The routines of the descent. The loops come with what they have made so far: a
chain with its left operand, statements with those that are read. -/
inductive Routine
  | level (level : Level)
  | chain (level : Level) (left : Tree)
  | expression | assignment | statement | block
  | statements (region : Region) (body : List Tree)

/-- A loop may be over before it has taken a token. -/
def Routine.isLoop : Routine → Bool
  | chain _ _ | statements _ _ => true
  | _ => false

/-- The parser of a routine, with the bound on nesting and the rounds left to a loop. -/
def Routine.parser (bound rounds : Nat) : Routine → Parser Tree
  | level l => parserAt bound l
  | chain l left => chainFrom l.operators (parserAt bound l.tighter) rounds left
  | expression => Parser.expression bound
  | assignment => Parser.assignment bound
  | statement => Parser.statement bound
  | block => Parser.block bound (Parser.statement (bound - 1))
  | statements region body => do
      let more ← statementsUntil region.stops (Parser.statement bound) rounds
      region.close (body ++ more)

/-- What a routine returns: a tree with the tokens behind it, or a fault. -/
abbrev Result := Except Fault (Tree × List Token)

/-- The routine returns this when these tokens are left. Where a second call depends on
what the first one returned, its results are given as a function, `more` or `body`, and
nothing is asked of it but at a success of the first call. -/
inductive Returns : Routine → List Token → Result → Prop
  | literal {t : Token} {ts : List Token} (ht : t.kind.isLiteral) :
      Returns (.level .primary) (t :: ts) (.ok (.leaf t, ts))
  | group {l : Token} {ts : List Token} {r : Result}
      (hl : l.kind = .lparen) (h : Returns .expression ts r) :
      Returns (.level .primary) (l :: ts) (resume r (closing .rparen))
  | noPrimary {t : Token} {ts : List Token} (hlit : ¬t.kind.isLiteral) (ht : t.kind ≠ .lparen) :
      Returns (.level .primary) (t :: ts) (.error (t.blame .expression))
  | sign {op : Token} {ts : List Token} {r : Result}
      (hop : op.kind ∈ unaryKinds) (h : Returns (.level .unary) ts r) :
      Returns (.level .unary) (op :: ts) (resume r fun e => return .unary op e)
  | unsigned {t : Token} {ts : List Token} {r : Result}
      (ht : t.kind ∉ unaryKinds) (h : Returns (.level .primary) (t :: ts) r) :
      Returns (.level .unary) (t :: ts) r
  | operand {level : Level} {ts : List Token} {first : Result}
      {more : Tree → Parser Tree} (hlevel : level.operators ≠ [])
      (hfirst : Returns (.level level.tighter) ts first)
      (hmore : ∀ a rest, first = .ok (a, rest) → Returns (.chain level a) rest (more a rest)) :
      Returns (.level level) ts (resume first more)
  | noOperator {level : Level} {left : Tree} {t : Token} {ts : List Token}
      (ht : t.kind ∉ level.operators) : Returns (.chain level left) (t :: ts) (.ok (left, t :: ts))
  | operator {level : Level} {left : Tree} {op : Token} {ts : List Token}
      {right : Result} {more : Tree → Parser Tree}
      (hop : op.kind ∈ level.operators) (hright : Returns (.level level.tighter) ts right)
      (hmore : ∀ b rest, right = .ok (b, rest) →
        Returns (.chain level (.binary op left b)) rest (more b rest)) :
      Returns (.chain level left) (op :: ts) (resume right more)
  | expression {ts : List Token} {r : Result}
      (h : Returns (.level .equality) ts r) : Returns .expression ts r
  | unassigned {ts : List Token} {r : Result}
      (h : Returns (.level .equality) ts r)
      (hnext : ∀ e rest, r = .ok (e, rest) → nextIn [.assign] rest = false) :
      Returns .assignment ts r
  | target {mark : Token} {ts rest : List Token} {e : Tree}
      (h : Returns (.level .equality) ts (.ok (e, mark :: rest))) (hmark : mark.kind = .assign)
      (he : e.identifier? = none) :
      Returns .assignment ts (.error (.parse .target (some e.text) mark.line))
  | assigned {name mark : Token} {ts rest : List Token} {r : Result}
      (h : Returns (.level .equality) ts (.ok (.leaf name, mark :: rest)))
      (hname : name.kind = .ident) (hmark : mark.kind = .assign)
      (hvalue : Returns (.level .equality) rest r) :
      Returns .assignment ts (resume r fun value => return .assign name value)
  | unnamed {kw t : Token} {ts : List Token} (hkw : kw.kind = .kwLet) (ht : t.kind ≠ .ident) :
      Returns .statement (kw :: t :: ts) (.error (t.blame (.kind .ident)))
  | declare {kw name t : Token} {ts : List Token} (hkw : kw.kind = .kwLet)
      (hname : name.kind = .ident) (ht : t.kind ≠ .assign) :
      Returns .statement (kw :: name :: t :: ts) (closing .semi (.declare name) (t :: ts))
  | define {kw name mark : Token} {ts : List Token} {r : Result}
      (hkw : kw.kind = .kwLet) (hname : name.kind = .ident) (hmark : mark.kind = .assign)
      (h : Returns .expression ts r) :
      Returns .statement (kw :: name :: mark :: ts)
        (resume r fun init => closing .semi (.define name init))
  | simple {k : Kind} {make : Tree → Tree} {kw : Token} {ts : List Token}
      {r : Result} (hk : Simple k make) (hkw : kw.kind = k)
      (h : Returns .expression ts r) :
      Returns .statement (kw :: ts) (resume r fun arg => closing .semi (make arg))
  | unguarded {k : Kind} {make : Tree → Tree → Tree} {kw t : Token} {ts : List Token}
      (hk : Conditional k make) (hkw : kw.kind = k) (ht : t.kind ≠ .lparen) :
      Returns .statement (kw :: t :: ts) (.error (t.blame (.kind .lparen)))
  | guarded {k : Kind} {make : Tree → Tree → Tree} {kw l : Token} {ts : List Token}
      {r : Result} {body : Tree → Parser Tree} (hk : Conditional k make)
      (hkw : kw.kind = k) (hl : l.kind = .lparen) (h : Returns .expression ts r)
      (hbody : ∀ e rest, resume r (closing .rparen) = .ok (e, rest) →
        Returns .block rest (body e rest)) :
      Returns .statement (kw :: l :: ts)
        (resume (resume r (closing .rparen)) fun e => do return make e (← body e))
  | ofBlock {l : Token} {ts : List Token} {r : Result}
      (hl : l.kind = .lbrace) (h : Returns .block (l :: ts) r) : Returns .statement (l :: ts) r
  | ofAssignment {t : Token} {ts : List Token} {r : Result}
      (ht : t.kind ∉ openers) (h : Returns .assignment (t :: ts) r) :
      Returns .statement (t :: ts) (resume r (closing .semi))
  | unopened {t : Token} {ts : List Token} (ht : t.kind ≠ .lbrace) :
      Returns .block (t :: ts) (.error (t.blame (.kind .lbrace)))
  | opened {l : Token} {ts : List Token} {r : Result}
      (hl : l.kind = .lbrace) (h : Returns (.statements .block []) ts r) :
      Returns .block (l :: ts) r
  | noStatement {region : Region} {body : List Tree} {t : Token} {ts : List Token}
      (ht : t.kind ∈ region.stops) :
      Returns (.statements region body) (t :: ts) (region.close body (t :: ts))
  | statements {region : Region} {body : List Tree} {t : Token} {ts : List Token}
      {first : Result} {more : Tree → Parser Tree}
      (ht : t.kind ∉ region.stops) (hfirst : Returns .statement (t :: ts) first)
      (hmore : ∀ s rest, first = .ok (s, rest) →
        Returns (.statements region (body ++ [s])) rest (more s rest)) :
      Returns (.statements region body) (t :: ts) (resume first more)

theorem resume_closing_eq_ok_iff {k : Kind} {r : Result} {e : Tree} {rest : List Token} :
    resume r (closing k) = .ok (e, rest) ↔ ∃ t, r = .ok (e, t :: rest) ∧ t.kind = k := by
  match r with
  | .error f => simp [resume]
  | .ok (a, ts) =>
      simp only [resume, closing, bind_eq_ok_iff, expect_eq_ok_iff, pure_eq_ok_iff,
        Except.ok.injEq, Prod.mk.injEq]
      constructor
      · rintro ⟨t, _, ⟨rfl, ht⟩, rfl, rfl⟩
        exact ⟨t, ⟨rfl, rfl⟩, ht⟩
      · rintro ⟨t, ⟨rfl, rfl⟩, ht⟩
        exact ⟨t, rest, ⟨rfl, ht⟩, rfl, rfl⟩

/-! ### Progress -/

/-- A success takes at least one token, and no end mark. -/
def Advances (p : Parser Tree) : Prop :=
  ∀ ts t rest, p ts = .ok (t, rest) →
    ∃ w, ts = w ++ rest ∧ w ≠ [] ∧ ∀ u ∈ w, u.kind ≠ .eof

theorem advances_of_soundAt {level : Level} {p : Parser Tree} (h : SoundAt level p) :
    Advances p := by
  intro ts e rest hok
  obtain ⟨w, rfl, he⟩ := h ts e rest hok
  obtain ⟨t, w', rfl, -⟩ := he.exists_cons
  exact ⟨t :: w', rfl, List.cons_ne_nil t w', he.kind_ne_eof⟩

theorem advances_of_statement {form : Form} {p : Parser Tree}
    (h : ∀ ts t rest, p ts = .ok (t, rest) → ∃ w, ts = w ++ rest ∧ Statement form w t) :
    Advances p := by
  intro ts t rest hok
  obtain ⟨w, rfl, ht⟩ := h ts t rest hok
  obtain ⟨u, w', rfl, -⟩ := ht.exists_cons
  exact ⟨u :: w', rfl, List.cons_ne_nil u w', ht.kind_ne_eof⟩

theorem advances_assignment (bound : Nat) : Advances (Parser.assignment bound) := by
  have hexpression := advances_of_soundAt (soundAt_expression bound)
  intro ts e rest hok
  rcases assignment_eq_ok_iff.1 hok with
    ⟨hplain, -⟩ | ⟨name, mark, mid, value, htarget, -, hmark, hvalue, -⟩
  · exact hexpression ts e rest hplain
  · obtain ⟨v, rfl, -, hv⟩ := hexpression _ _ _ htarget
    obtain ⟨w, rfl, -, hw⟩ := hexpression _ _ _ hvalue
    refine ⟨v ++ mark :: w, by simp, by simp, ?_⟩
    rw [List.forall_mem_append, List.forall_mem_cons, hmark]
    exact ⟨hv, by decide, hw⟩

theorem advances_routine {routine : Routine} (h : routine.isLoop = false) (bound rounds : Nat) :
    Advances (routine.parser bound rounds) := by
  cases routine with
  | level l => exact advances_of_soundAt (soundAt_parserAt bound l)
  | expression => exact advances_of_soundAt (soundAt_expression bound)
  | assignment => exact advances_assignment bound
  | statement => exact advances_of_statement (soundStatement_statement bound)
  | block => exact advances_of_statement fun _ _ _ => sound_block (soundStatement_statement _)
  | chain _ _ | statements _ _ => cases h

theorem length_lt_of_ok {routine : Routine} (hloop : routine.isLoop = false)
    {bound rounds : Nat} {ts rest : List Token} {t : Tree}
    (hok : routine.parser bound rounds ts = .ok (t, rest)) : rest.length < ts.length := by
  obtain ⟨w, rfl, hw, -⟩ := advances_routine hloop bound rounds ts t rest hok
  have hpos := List.length_pos_iff.2 hw
  rw [List.length_append]
  omega

/-! ### The parsers with their bound

The parser of a routine keeps to the rules of the descent, as long as its bound covers the
tokens. Within parentheses and braces the bound is one less, and so are the tokens. -/

section

variable {bound rounds : Nat} {level : Level} {t : Token} {ts rest : List Token}

theorem parser_group (hl : t.kind = .lparen) :
    (Routine.level .primary).parser bound rounds (t :: ts) =
      resume (Routine.expression.parser (bound - 1) rounds ts) (closing .rparen) := by
  change primary _ (t :: ts) = _
  rw [primary_of_lparen hl, bind_apply]
  rfl

theorem parser_noPrimary (hlit : ¬t.kind.isLiteral) (ht : t.kind ≠ .lparen) :
    (Routine.level .primary).parser bound rounds (t :: ts) = .error (t.blame .expression) := by
  change primary _ (t :: ts) = _
  rw [primary, if_neg hlit, if_neg ht]
  rfl

theorem parser_sign (ht : t.kind ∈ unaryKinds) :
    (Routine.level .unary).parser bound rounds (t :: ts) =
      resume ((Routine.level .unary).parser bound rounds ts) fun e => return .unary t e := by
  change unary _ (t :: ts) = _
  rw [unary_of_mem ht, bind_apply]
  rfl

theorem parser_operand (h : level.operators ≠ []) :
    (Routine.level level).parser bound rounds ts =
      resume ((Routine.level level.tighter).parser bound rounds ts) fun a =>
        (Routine.chain level a).parser bound bound := by
  have hchain : parserAt bound level =
      chain bound level.operators (parserAt bound level.tighter) := by
    cases level with
    | primary | unary => exact absurd rfl h
    | multiplicative | additive | comparison | equality => rfl
  change parserAt bound level ts = _
  rw [hchain, chain, bind_apply]
  rfl

theorem parser_operator {left : Tree} (ht : t.kind ∈ level.operators) :
    (Routine.chain level left).parser bound (rounds + 1) (t :: ts) =
      resume ((Routine.level level.tighter).parser bound rounds ts) fun b =>
        (Routine.chain level (.binary t left b)).parser bound rounds := by
  change chainFrom _ _ (rounds + 1) left (t :: ts) = _
  rw [chainFrom_of_mem ht, bind_apply]
  rfl

/-- Where there are no tokens an expression is missing, whatever the bound. -/
theorem parser_expression (h : ts.length ≤ bound) :
    Routine.expression.parser bound rounds ts =
      (Routine.level .equality).parser bound rounds ts := by
  cases bound with
  | zero =>
      obtain rfl : ts = [] := List.length_eq_zero_iff.1 (Nat.le_zero.1 h)
      rfl
  | succ n => rfl

theorem parser_unassigned {r : Result} (h : Routine.expression.parser bound rounds ts = r)
    (hr : ∀ e rest, r = .ok (e, rest) → nextIn [.assign] rest = false) :
    Routine.assignment.parser bound rounds ts = r := by
  match r with
  | .ok (e, rest) => exact assignment_eq_ok_iff.2 (.inl ⟨h, hr e rest rfl⟩)
  | .error f => exact bind_of_error h

theorem parser_assigned {name mark : Token}
    (h : Routine.expression.parser bound rounds ts = .ok (.leaf name, mark :: rest))
    (hname : name.kind = .ident) (hmark : mark.kind = .assign) :
    Routine.assignment.parser bound rounds ts =
      resume (Routine.expression.parser bound rounds rest) fun value =>
        return .assign name value := by
  change Parser.assignment bound ts = _
  rw [assignment_of_name h hname hmark, bind_apply]
  rfl

theorem parser_statement (h : (t :: ts).length ≤ bound) :
    Routine.statement.parser bound rounds (t :: ts) =
      match t.kind with
      | .kwLet => declaration bound (t :: ts)
      | .lbrace => Routine.block.parser bound rounds (t :: ts)
      | .kwIf => conditional .kwIf .branch bound (statement (bound - 1)) (t :: ts)
      | .kwWhile => conditional .kwWhile .loop bound (statement (bound - 1)) (t :: ts)
      | .kwPrint => keywordStatement .kwPrint .print bound (t :: ts)
      | .kwLoad => keywordStatement .kwLoad .load bound (t :: ts)
      | .kwExec => keywordStatement .kwExec .exec bound (t :: ts)
      | _ => expressionStatement bound (t :: ts) := by
  cases bound with
  | zero => simp at h
  | succ n => exact statement_cons

theorem parser_define {kw name : Token} (h : (kw :: name :: t :: ts).length ≤ bound)
    (hkw : kw.kind = .kwLet) (hname : name.kind = .ident) (ht : t.kind = .assign) :
    Routine.statement.parser bound rounds (kw :: name :: t :: ts) =
      resume (Routine.expression.parser bound rounds ts) fun init =>
        closing .semi (.define name init) := by
  rw [parser_statement h, hkw]
  change declaration bound _ = _
  rw [declaration_of_assign hkw hname ht, bind_apply]
  rfl

theorem parser_simple {k : Kind} {make : Tree → Tree} (h : (t :: ts).length ≤ bound)
    (hk : Simple k make) (ht : t.kind = k) :
    Routine.statement.parser bound rounds (t :: ts) =
      resume (Routine.expression.parser bound rounds ts) fun arg => closing .semi (make arg) := by
  have hsimple : Routine.statement.parser bound rounds (t :: ts) =
      keywordStatement k make bound (t :: ts) := by
    rw [parser_statement h, ht]
    cases hk <;> rfl
  rw [hsimple, keywordStatement_cons ht, bind_apply]
  rfl

theorem parser_conditional {k : Kind} {make : Tree → Tree → Tree} (h : (t :: ts).length ≤ bound)
    (hk : Conditional k make) (ht : t.kind = k) :
    Routine.statement.parser bound rounds (t :: ts) =
      conditional k make bound (statement (bound - 1)) (t :: ts) := by
  rw [parser_statement h, ht]
  cases hk <;> rfl

/-- The condition is taken together with the parenthesis that closes it. -/
theorem parser_guarded {k : Kind} {make : Tree → Tree → Tree} {kw : Token}
    (h : (kw :: t :: ts).length ≤ bound) (hk : Conditional k make) (hkw : kw.kind = k)
    (ht : t.kind = .lparen) :
    Routine.statement.parser bound rounds (kw :: t :: ts) =
      resume (resume (Routine.expression.parser bound rounds ts) (closing .rparen)) fun e => do
        return make e (← Routine.block.parser bound rounds) := by
  have hregroup : conditional k make bound (statement (bound - 1)) (kw :: t :: ts) =
      ((expression bound >>= closing .rparen) >>= fun e => do
        return make e (← block bound (statement (bound - 1)))) ts := by
    rw [conditional_of_lparen hkw ht]
    simp only [closing, bind_assoc, pure_bind]
  rw [parser_conditional h hk hkw, hregroup, bind_apply, bind_apply]
  rfl

theorem parser_ofAssignment (h : (t :: ts).length ≤ bound) (ht : t.kind ∉ openers) :
    Routine.statement.parser bound rounds (t :: ts) =
      resume (Routine.assignment.parser bound rounds (t :: ts)) (closing .semi) := by
  obtain ⟨n, rfl⟩ : ∃ n, bound = n + 1 := ⟨bound - 1, by simp at h; omega⟩
  refine (statement_of_nextIn_openers (by simp [nextIn, ht])).trans ?_
  rw [expressionStatement, bind_apply]
  rfl

theorem parser_noStatement {region : Region} {body : List Tree} (ht : t.kind ∈ region.stops) :
    (Routine.statements region body).parser bound rounds (t :: ts) =
      region.close body (t :: ts) := by
  have hstop : statementsUntil region.stops (statement bound) rounds (t :: ts) =
      .ok ([], t :: ts) := statementsUntil_of_nextIn (nextIn_eq_true_iff.2 ⟨t, ts, rfl, ht⟩)
  rw [Routine.parser, bind_of_ok hstop, List.append_nil]

theorem parser_statements {region : Region} {body : List Tree} (ht : t.kind ∉ region.stops) :
    (Routine.statements region body).parser bound (rounds + 1) (t :: ts) =
      resume (Routine.statement.parser bound rounds (t :: ts)) fun s =>
        (Routine.statements region (body ++ [s])).parser bound rounds := by
  have hnext : nextIn region.stops (t :: ts) = false := by simp [nextIn, ht]
  change (statementsUntil region.stops (statement bound) (rounds + 1) >>= fun more =>
    region.close (body ++ more)) (t :: ts) = _
  rw [bind_apply, statementsUntil_succ hnext, ← bind_apply, bind_assoc, bind_apply]
  refine resume_congr fun s rest _ => ?_
  simp only [Routine.parser, bind_assoc, pure_bind, List.append_assoc, List.singleton_append]

end

/-- A routine that is called on what another one left. -/
theorem resume_next {routine : Routine} (hloop : routine.isLoop = false)
    {bound rounds bound' rounds' : Nat} {ts : List Token} {first : Result}
    (hfirst : routine.parser bound rounds ts = first) {next : Tree → Routine}
    {more : Tree → Parser Tree}
    (hmore : ∀ a rest, first = .ok (a, rest) → rest.length < ts.length →
      (next a).parser bound' rounds' rest = more a rest) :
    resume first (fun a => (next a).parser bound' rounds') = resume first more :=
  resume_congr fun a rest hok =>
    hmore a rest hok (length_lt_of_ok hloop (hfirst.trans hok))

/-- With a bound that covers the tokens a parser does what the descent does without. -/
theorem Returns.parser_eq {routine : Routine} {ts : List Token} {r : Result}
    (h : Returns routine ts r) {bound rounds : Nat} (hbound : ts.length ≤ bound)
    (hrounds : ts.length ≤ rounds) : routine.parser bound rounds ts = r := by
  -- A call on fewer tokens may have a bound or rounds that are one less: they still cover
  -- the tokens. A success leaves fewer tokens, so this holds of the calls behind it too.
  induction h generalizing bound rounds with
  | literal ht => exact primary_of_isLiteral ht
  | group hl _ ih =>
      rw [parser_group hl, ih (Nat.le_sub_one_of_lt hbound) (Nat.le_of_succ_le hrounds)]
  | noPrimary hlit ht => exact parser_noPrimary hlit ht
  | sign hop _ ih =>
      rw [parser_sign hop, ih (Nat.le_of_succ_le hbound) (Nat.le_of_succ_le hrounds)]
  | unsigned ht _ ih => exact (unary_of_not_mem ht).trans (ih hbound hrounds)
  | operand hlevel _ _ ih ihmore =>
      have htight := ih hbound hrounds
      rw [parser_operand hlevel, htight]
      exact resume_next rfl htight fun a rest hok hlt =>
        ihmore a rest hok (by omega) (by omega)
  | noOperator ht => exact chainFrom_of_nextIn (by simp [nextIn, ht])
  | operator hop _ _ ih ihmore =>
      simp only [List.length_cons] at hbound hrounds
      obtain ⟨n, rfl⟩ : ∃ n, rounds = n + 1 := ⟨rounds - 1, by omega⟩
      have htight := @ih bound n (by omega) (by omega)
      rw [parser_operator hop, htight]
      exact resume_next rfl htight fun b rest hok hlt =>
        ihmore b rest hok (by omega) (by omega)
  | expression _ ih => exact (parser_expression hbound).trans (ih hbound hrounds)
  | unassigned _ hnext ih =>
      exact parser_unassigned ((parser_expression hbound).trans (ih hbound hrounds)) hnext
  | target _ hmark he ih =>
      have htarget := (parser_expression hbound).trans (ih hbound hrounds)
      exact assignment_of_target htarget hmark he
  | assigned _ hname hmark _ ih ihvalue =>
      have htarget := (parser_expression hbound).trans (ih hbound hrounds)
      have hlt := length_lt_of_ok rfl htarget
      rw [List.length_cons] at hlt
      rw [parser_assigned htarget hname hmark, parser_expression (by omega),
        ihvalue (by omega) (by omega)]
  | unnamed hkw ht =>
      rw [parser_statement hbound, hkw]
      exact declaration_of_ne_ident hkw ht
  | declare hkw hname ht =>
      rw [parser_statement hbound, hkw]
      exact declaration_of_ne_assign hkw hname ht
  | define hkw hname hmark _ ih =>
      rw [parser_define hbound hkw hname hmark]
      simp only [List.length_cons] at hbound hrounds
      rw [ih (by omega) (by omega)]
  | simple hk hkw _ ih =>
      rw [parser_simple hbound hk hkw, ih (Nat.le_of_succ_le hbound) (Nat.le_of_succ_le hrounds)]
  | unguarded hk hkw ht =>
      exact (parser_conditional hbound hk hkw).trans (conditional_of_ne_lparen hkw ht)
  | guarded hk hkw hl _ _ ih ihbody =>
      rw [parser_guarded hbound hk hkw hl]
      simp only [List.length_cons] at hbound hrounds
      have hcond := @ih bound rounds (by omega) (by omega)
      rw [hcond]
      refine resume_congr fun e rest hok => ?_
      obtain ⟨close, hr, -⟩ := resume_closing_eq_ok_iff.1 hok
      have hlt := length_lt_of_ok rfl (hcond.trans hr)
      rw [List.length_cons] at hlt
      rw [bind_apply, ihbody e rest hok (by omega) (by omega), ← bind_apply]
  | ofBlock hl _ ih =>
      rw [parser_statement hbound, hl]
      exact ih hbound hrounds
  | ofAssignment ht _ ih => rw [parser_ofAssignment hbound ht, ih hbound hrounds]
  | unopened ht => exact block_of_ne_lbrace ht
  | opened hl _ ih =>
      exact (block_of_lbrace hl).trans (ih (Nat.le_sub_one_of_lt hbound) (Nat.le_of_succ_le hbound))
  | noStatement ht => exact parser_noStatement ht
  | statements ht _ _ ih ihmore =>
      obtain ⟨n, rfl⟩ : ∃ n, rounds = n + 1 := ⟨rounds - 1, by simp at hrounds; omega⟩
      have hstatement := @ih bound (n + 1) hbound hrounds
      rw [parser_statements ht]
      -- A statement is no loop, and it does not matter how many rounds are left to it.
      refine (congrArg (resume · _) hstatement).trans ?_
      exact resume_next rfl hstatement fun s rest hok hlt =>
        ihmore s rest hok (by omega) (by omega)

/-! ### Every call returns

The calls are on fewer tokens, where by assumption every routine returns, or they are
on the same tokens and are dealt with in order: first the levels from the tightest
outwards, then assignments, then statements. -/

/-- A success leaves fewer tokens than these, and an end mark among them. -/
def Leaves (ts : List Token) (r : Result) : Prop :=
  ∀ a rest, r = .ok (a, rest) → rest.length < ts.length ∧ Ended rest

theorem Returns.leaves {routine : Routine} {ts : List Token} {r : Result}
    (h : Returns routine ts r) (hloop : routine.isLoop = false) (hended : Ended ts) :
    Leaves ts r := by
  rintro a rest rfl
  have hok := h.parser_eq (Nat.le_refl _) (Nat.le_refl _)
  obtain ⟨w, rfl, -, hw⟩ := advances_routine hloop _ _ ts a rest hok
  exact ⟨length_lt_of_ok hloop hok, hended.of_append hw⟩

theorem Leaves.closing {ts : List Token} {r : Result} (h : Leaves ts r) {k : Kind}
    (hk : k ≠ .eof) : Leaves ts (resume r (closing k)) := by
  intro a rest hok
  obtain ⟨t, hr, rfl⟩ := resume_closing_eq_ok_iff.1 hok
  obtain ⟨hlt, hended⟩ := h a (t :: rest) hr
  exact ⟨Nat.lt_of_succ_lt hlt, hended.of_cons hk⟩

/-- Every routine returns on fewer tokens than these. -/
def ReturnsBelow (ts : List Token) : Prop :=
  ∀ us, us.length < ts.length → Ended us → ∀ routine, ∃ r, Returns routine us r

theorem ReturnsBelow.of_cons {t : Token} {ts : List Token} (h : ReturnsBelow (t :: ts)) :
    ReturnsBelow ts :=
  fun us hlt => h us (Nat.lt_succ_of_lt hlt)

theorem ReturnsBelow.tail {t : Token} {ts : List Token} (h : ReturnsBelow (t :: ts))
    (hended : Ended ts) (routine : Routine) : ∃ r, Returns routine ts r :=
  h ts (Nat.lt_succ_self _) hended routine

/-- A routine that is called on what a success leaves returns. -/
theorem ReturnsBelow.exists_more {ts : List Token} (h : ReturnsBelow ts) {first : Result}
    (hfirst : Leaves ts first) (next : Tree → Routine) :
    ∃ more : Tree → Parser Tree,
      ∀ a rest, first = .ok (a, rest) → Returns (next a) rest (more a rest) := by
  match first, hfirst with
  | .error f, _ => exact ⟨fun _ _ => .error f, fun a rest hok => by cases hok⟩
  | .ok (a, rest), hfirst =>
      obtain ⟨hlt, hrest⟩ := hfirst a rest rfl
      obtain ⟨r, hr⟩ := h rest hlt hrest (next a)
      refine ⟨fun _ _ => r, ?_⟩
      rintro _ _ ⟨⟩
      exact hr

theorem eof_notMem_operators (level : Level) : Kind.eof ∉ level.operators := by
  cases level <;> decide

section

variable {ts : List Token} (hended : Ended ts) (hbelow : ReturnsBelow ts)

include hended hbelow

theorem returns_primary : ∃ r, Returns (.level .primary) ts r := by
  obtain ⟨t, us, rfl⟩ := hended.exists_cons
  by_cases hlit : t.kind.isLiteral
  · exact ⟨_, .literal hlit⟩
  · by_cases ht : t.kind = .lparen
    · obtain ⟨r, hr⟩ := hbelow.tail (hended.of_cons (by rw [ht]; decide)) .expression
      exact ⟨_, .group ht hr⟩
    · exact ⟨_, .noPrimary hlit ht⟩

theorem returns_unary : ∃ r, Returns (.level .unary) ts r := by
  obtain ⟨t, us, rfl⟩ := hended.exists_cons
  by_cases ht : t.kind ∈ unaryKinds
  · have hne : t.kind ≠ .eof := by
      intro heof
      rw [heof] at ht
      exact absurd ht (by decide)
    obtain ⟨r, hr⟩ := hbelow.tail (hended.of_cons hne) (.level .unary)
    exact ⟨_, .sign ht hr⟩
  · obtain ⟨r, hr⟩ := returns_primary hended hbelow
    exact ⟨r, .unsigned ht hr⟩

theorem returns_operand {level : Level} (hlevel : level.operators ≠ [])
    (htight : ∃ r, Returns (.level level.tighter) ts r) : ∃ r, Returns (.level level) ts r := by
  obtain ⟨first, hfirst⟩ := htight
  obtain ⟨more, hmore⟩ := hbelow.exists_more (hfirst.leaves rfl hended) (.chain level)
  exact ⟨_, .operand hlevel hfirst hmore⟩

theorem returns_level (level : Level) : ∃ r, Returns (.level level) ts r := by
  -- A level calls the next tighter one on the same tokens, so they are taken from within.
  have hunary := returns_unary hended hbelow
  have hmul : ∃ r, Returns (.level .multiplicative) ts r :=
    returns_operand hended hbelow (by decide) hunary
  have hadd : ∃ r, Returns (.level .additive) ts r :=
    returns_operand hended hbelow (by decide) hmul
  have hcmp : ∃ r, Returns (.level .comparison) ts r :=
    returns_operand hended hbelow (by decide) hadd
  cases level with
  | primary => exact returns_primary hended hbelow
  | unary => exact hunary
  | multiplicative => exact hmul
  | additive => exact hadd
  | comparison => exact hcmp
  | equality => exact returns_operand hended hbelow (by decide) hcmp

theorem returns_chain (level : Level) (left : Tree) : ∃ r, Returns (.chain level left) ts r := by
  obtain ⟨t, us, rfl⟩ := hended.exists_cons
  by_cases ht : t.kind ∈ level.operators
  · have hus : Ended us := hended.of_cons fun heof => eof_notMem_operators level (heof ▸ ht)
    obtain ⟨right, hright⟩ := hbelow.tail hus (.level level.tighter)
    obtain ⟨more, hmore⟩ :=
      hbelow.of_cons.exists_more (hright.leaves rfl hus) fun b => .chain level (.binary t left b)
    exact ⟨_, .operator ht hright hmore⟩
  · exact ⟨_, .noOperator ht⟩

theorem returns_expression : ∃ r, Returns .expression ts r := by
  obtain ⟨r, hr⟩ := returns_level hended hbelow .equality
  exact ⟨r, .expression hr⟩

theorem returns_assignment : ∃ r, Returns .assignment ts r := by
  obtain ⟨first, hfirst⟩ := returns_level hended hbelow .equality
  have hleaves := hfirst.leaves rfl hended
  match first with
  | .error f => exact ⟨_, .unassigned hfirst fun e rest hok => by cases hok⟩
  | .ok (e, rest) =>
      obtain ⟨hlt, hrest⟩ := hleaves e rest rfl
      obtain ⟨mark, us, rfl⟩ := hrest.exists_cons
      by_cases hmark : mark.kind = .assign
      · have hus : Ended us := hrest.of_cons (by rw [hmark]; decide)
        cases hid : e.identifier? with
        | none => exact ⟨_, .target hfirst hmark hid⟩
        | some name =>
            obtain ⟨rfl, hname⟩ := identifier?_eq_some_iff.1 hid
            obtain ⟨r, hr⟩ := hbelow us (Nat.lt_of_succ_lt hlt) hus (.level .equality)
            exact ⟨_, .assigned hfirst hname hmark hr⟩
      · refine ⟨_, .unassigned hfirst ?_⟩
        rintro _ _ ⟨⟩
        simp [nextIn, hmark]

theorem returns_block : ∃ r, Returns .block ts r := by
  obtain ⟨t, us, rfl⟩ := hended.exists_cons
  by_cases ht : t.kind = .lbrace
  · obtain ⟨r, hr⟩ := hbelow.tail (hended.of_cons (by rw [ht]; decide)) (.statements .block [])
    exact ⟨r, .opened ht hr⟩
  · exact ⟨_, .unopened ht⟩

end

section

variable {kw : Token} {ts : List Token} (hended : Ended (kw :: ts))
  (hbelow : ReturnsBelow (kw :: ts))

include hended hbelow

theorem returns_declaration (hkw : kw.kind = .kwLet) : ∃ r, Returns .statement (kw :: ts) r := by
  have hts : Ended ts := hended.of_cons (by rw [hkw]; decide)
  obtain ⟨name, us, rfl⟩ := hts.exists_cons
  by_cases hname : name.kind = .ident
  · have hus : Ended us := hts.of_cons (by rw [hname]; decide)
    obtain ⟨t, vs, rfl⟩ := hus.exists_cons
    by_cases ht : t.kind = .assign
    · have hvs : Ended vs := hus.of_cons (by rw [ht]; decide)
      obtain ⟨r, hr⟩ := hbelow.of_cons.of_cons.tail hvs .expression
      exact ⟨_, .define hkw hname ht hr⟩
    · exact ⟨_, .declare hkw hname ht⟩
  · exact ⟨_, .unnamed hkw hname⟩

theorem returns_simple {k : Kind} {make : Tree → Tree} (hk : Simple k make) (hkw : kw.kind = k) :
    ∃ r, Returns .statement (kw :: ts) r := by
  have hts : Ended ts := hended.of_cons (by rw [hkw]; cases hk <;> decide)
  obtain ⟨r, hr⟩ := hbelow.tail hts .expression
  exact ⟨_, .simple hk hkw hr⟩

theorem returns_conditional {k : Kind} {make : Tree → Tree → Tree} (hk : Conditional k make)
    (hkw : kw.kind = k) : ∃ r, Returns .statement (kw :: ts) r := by
  have hts : Ended ts := hended.of_cons (by rw [hkw]; cases hk <;> decide)
  obtain ⟨l, us, rfl⟩ := hts.exists_cons
  by_cases hl : l.kind = .lparen
  · have hus : Ended us := hts.of_cons (by rw [hl]; decide)
    obtain ⟨r, hr⟩ := hbelow.of_cons.tail hus .expression
    have hclosed : Leaves us (resume r (closing .rparen)) :=
      (hr.leaves rfl hus).closing (by decide)
    obtain ⟨body, hbody⟩ := hbelow.of_cons.of_cons.exists_more hclosed fun _ => .block
    exact ⟨_, .guarded hk hkw hl hr hbody⟩
  · exact ⟨_, .unguarded hk hkw hl⟩

end

section

variable {ts : List Token} (hended : Ended ts) (hbelow : ReturnsBelow ts)

include hended hbelow

theorem returns_statement : ∃ r, Returns .statement ts r := by
  obtain ⟨t, us, rfl⟩ := hended.exists_cons
  by_cases ht : t.kind ∈ openers
  · simp only [openers, List.mem_cons, List.not_mem_nil, or_false] at ht
    rcases ht with hlet | hbrace | hif | hwhile | hprint | hload | hexec
    · exact returns_declaration hended hbelow hlet
    · obtain ⟨r, hr⟩ := returns_block hended hbelow
      exact ⟨r, .ofBlock hbrace hr⟩
    · exact returns_conditional hended hbelow .branch hif
    · exact returns_conditional hended hbelow .loop hwhile
    · exact returns_simple hended hbelow .print hprint
    · exact returns_simple hended hbelow .load hload
    · exact returns_simple hended hbelow .exec hexec
  · obtain ⟨r, hr⟩ := returns_assignment hended hbelow
    exact ⟨_, .ofAssignment ht hr⟩

theorem returns_statements (region : Region) (body : List Tree) :
    ∃ r, Returns (.statements region body) ts r := by
  obtain ⟨t, us, rfl⟩ := hended.exists_cons
  by_cases ht : t.kind ∈ region.stops
  · exact ⟨_, .noStatement ht⟩
  · obtain ⟨first, hfirst⟩ := returns_statement hended hbelow
    obtain ⟨more, hmore⟩ := hbelow.exists_more (hfirst.leaves rfl hended) fun s =>
      .statements region (body ++ [s])
    exact ⟨_, .statements ht hfirst hmore⟩

end

/-- With an end mark to come every routine returns. -/
theorem exists_returns {ts : List Token} (hended : Ended ts) (routine : Routine) :
    ∃ r, Returns routine ts r := by
  induction hlength : ts.length using Nat.strongRecOn generalizing ts routine with
  | ind n ih =>
      subst hlength
      have hbelow : ReturnsBelow ts := fun us hlt hus routine => ih _ hlt hus routine rfl
      cases routine with
      | level l => exact returns_level hended hbelow l
      | chain l left => exact returns_chain hended hbelow l left
      | expression => exact returns_expression hended hbelow
      | assignment => exact returns_assignment hended hbelow
      | statement => exact returns_statement hended hbelow
      | block => exact returns_block hended hbelow
      | statements region body => exact returns_statements hended hbelow region body

/-- What a routine returns is what its parser returns, if the bound covers the tokens. -/
theorem returns_iff {ts : List Token} (hended : Ended ts) {routine : Routine} {r : Result}
    {bound rounds : Nat} (hbound : ts.length ≤ bound) (hrounds : ts.length ≤ rounds) :
    Returns routine ts r ↔ routine.parser bound rounds ts = r := by
  constructor
  · exact fun h => h.parser_eq hbound hrounds
  · rintro rfl
    obtain ⟨r, hr⟩ := exists_returns hended routine
    rwa [hr.parser_eq hbound hrounds]

/-! ### Positions -/

/-- A success moves on, and not past any end mark. -/
theorem exists_position {p : Parser Tree} (h : Advances p) {ts rest : List Token} {i : Nat}
    {t : Tree} (hok : p (ts.drop i) = .ok (t, rest)) :
    ∃ j, i < j ∧ rest = ts.drop j ∧
      ∀ k, (hk : k < ts.length) → i ≤ k → ts[k].kind = .eof → j ≤ k := by
  obtain ⟨w, hw, hne, hkinds⟩ := h _ t rest hok
  have hpos := List.length_pos_iff.2 hne
  refine ⟨i + w.length, by omega, ?_, ?_⟩
  · rw [← List.drop_drop, hw, List.drop_left]
  · intro k hk hik heof
    refine Nat.le_of_not_lt fun hlt => ?_
    have hget : w[k - i]? = some ts[k] := calc
      w[k - i]? = (w ++ rest)[k - i]? := (List.getElem?_append_left (by omega)).symm
      _ = (ts.drop i)[k - i]? := by rw [hw]
      _ = ts[i + (k - i)]? := List.getElem?_drop
      _ = some ts[k] := by rw [Nat.add_sub_cancel' hik, List.getElem?_eq_getElem hk]
    exact hkinds _ (List.mem_of_getElem? hget) heof

/-! ### Token lists -/

theorem ofTokens_of_returns {ts : List Token} (hended : Ended ts) {r : Result}
    (h : Returns (.statements .program []) ts r) : Tree.ofTokens ts = r.map Prod.fst := by
  have hprogram : program ts.length ts = r := h.parser_eq (Nat.le_refl _) (Nat.le_refl _)
  rw [ofTokens_of_ended hended, hprogram]

theorem ofTokens_of_not_ended {ts : List Token} (h : ¬Ended ts) :
    ∃ found line, Tree.ofTokens ts = .error (.parse .finalEof found line) := by
  unfold Tree.ofTokens
  rcases List.eq_nil_or_concat ts with rfl | ⟨us, last, rfl⟩
  · exact ⟨none, 0, rfl⟩
  · have hlast : last.kind ≠ .eof := fun heof => h ⟨us, last, List.concat_eq_append, heof⟩
    simp only [List.concat_eq_append, List.getLast?_append, List.getLast?_singleton,
      Option.some_or, if_neg hlast]
    exact ⟨_, _, rfl⟩

/-- Whatever keeps tokens from being read as a tree is a fault of parsing. -/
theorem exists_of_ofTokens_error {ts : List Token} {f : Fault} (h : Tree.ofTokens ts = .error f) :
    ∃ e found line, f = .parse e found line := by
  have hagree := agree_ofTokens_map (f := id) (fun _ => rfl) ts
  rw [h] at hagree
  generalize Tree.ofTokens (ts.map id) = r at hagree
  cases hagree with
  | error hblame =>
      obtain ⟨e, found, _, line, _, rfl, -⟩ := hblame.exists_parse
      exact ⟨e, found, line, rfl⟩

end Descent

open Grammar Descent

/-- Parsing moves on and comes to an end. In tokens that close with an end mark, and from
any position among them, a routine that is no loop succeeds only at a later position and
without taking an end mark, so never beyond the next one; and every routine returns, the
loops among them, with what its parser gives at any bound that covers the tokens. Tokens
without an end mark at their close are turned down before any routine is called. Either
way the outcome is a tree or a fault of parsing. -/
theorem descent_ends (ts : List Token) :
    (Ended ts →
      (∀ i < ts.length, ∀ routine : Routine,
        (routine.isLoop = false → ∀ bound rounds t rest,
          routine.parser bound rounds (ts.drop i) = .ok (t, rest) →
            ∃ j, i < j ∧ rest = ts.drop j ∧
              ∀ k, (hk : k < ts.length) → i ≤ k → ts[k].kind = .eof → j ≤ k) ∧
        (∃ r, Returns routine (ts.drop i) r) ∧
        ∀ bound rounds r, (ts.drop i).length ≤ bound → (ts.drop i).length ≤ rounds →
          (Returns routine (ts.drop i) r ↔ routine.parser bound rounds (ts.drop i) = r)) ∧
      ∃ r, Returns (.statements .program []) ts r ∧ Tree.ofTokens ts = r.map Prod.fst) ∧
    (¬Ended ts → ∃ found line, Tree.ofTokens ts = .error (.parse .finalEof found line)) ∧
    ((∃ t, Tree.ofTokens ts = .ok t) ∨
      ∃ e found line, Tree.ofTokens ts = .error (.parse e found line)) := by
  refine ⟨fun hended => ⟨fun i hi routine => ⟨?_, ?_, ?_⟩, ?_⟩, ofTokens_of_not_ended, ?_⟩
  · intro hloop bound rounds t rest hok
    exact exists_position (advances_routine hloop bound rounds) hok
  · exact exists_returns (hended.drop hi) routine
  · intro bound rounds r hbound hrounds
    exact returns_iff (hended.drop hi) hbound hrounds
  · obtain ⟨r, hr⟩ := exists_returns hended (.statements .program [])
    exact ⟨r, hr, ofTokens_of_returns hended hr⟩
  · cases hresult : Tree.ofTokens ts with
    | ok t => exact .inl ⟨t, rfl⟩
    | error f =>
        obtain ⟨e, found, line, rfl⟩ := exists_of_ofTokens_error hresult
        exact .inr ⟨e, found, line, rfl⟩

/-- The block is broken off by an end mark and more tokens follow. The statement in the
block goes up to the mark; behind it parentheses are left open. -/
theorem descent_ends_unclosed :
    let mark (k : Kind) : Token := ⟨k, 2, none⟩
    let x : Token := ⟨.ident, 1, some (.str "x")⟩
    let ts : List Token := [mark .lbrace, x, mark .semi, mark .eof, mark .minus, mark .lparen, x,
      mark .eof]
    Ended ts ∧ 1 < ts.length ∧ Routine.statement.isLoop = false ∧
      Routine.statement.parser 7 7 (ts.drop 1) = .ok (.leaf x, ts.drop 3) ∧
      (∃ j, 1 < j ∧ ts.drop 3 = ts.drop j ∧
        ∀ k, (hk : k < ts.length) → 1 ≤ k → ts[k].kind = .eof → j ≤ k) ∧
      Returns (.level .unary) (ts.drop 4) (.error (.parse (.kind .rparen) (some "<eof>") 2)) ∧
      ∃ e found line, Tree.ofTokens ts = .error (.parse e found line) := by
  intro mark x ts
  have hended : Ended ts := ⟨ts.dropLast, mark .eof, rfl, rfl⟩
  obtain ⟨hdescent, -, houtcome⟩ := descent_ends ts
  obtain ⟨hroutines, -⟩ := hdescent hended
  have hstatement : Routine.statement.parser 7 7 (ts.drop 1) = .ok (.leaf x, ts.drop 3) := rfl
  have hposition := (hroutines 1 (by decide) .statement).1 rfl 7 7 _ _ hstatement
  have hunary := (hroutines 4 (by decide) (.level .unary)).2.2 4 4
    (.error (.parse (.kind .rparen) (some "<eof>") 2)) (by decide) (by decide)
  refine ⟨hended, by decide, rfl, hstatement, hposition, hunary.2 rfl, ?_⟩
  rcases houtcome with ⟨t, ht⟩ | hfault
  · cases ht
  · exact hfault

end Quill
