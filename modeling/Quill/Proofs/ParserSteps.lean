import Quill.Tree.Parser

/-!
What each parser does when it succeeds. A success of a parser that is put together
from others is a success of its parts, one after the other, each taking up the
tokens that the one before it left. The lemmas here say so for every parser of
the grammar, in both directions; nothing later opens a parser again.
-/

namespace Quill

namespace Parser

variable {α β : Type}

theorem bind_of_ok {p : Parser α} {f : α → Parser β} {ts mid : List Token} {a : α}
    (h : p ts = .ok (a, mid)) : (p >>= f) ts = f a mid := by
  change StateT.bind p f ts = _
  simp [StateT.bind, Bind.bind, Except.bind, h]

theorem bind_of_error {p : Parser α} {f : α → Parser β} {ts : List Token} {e : Fault}
    (h : p ts = .error e) : (p >>= f) ts = .error e := by
  change StateT.bind p f ts = _
  simp [StateT.bind, Bind.bind, Except.bind, h]

/-- Go on from what has been returned; a fault is passed on as it is. -/
def resume (r : Except Fault (α × List Token)) (f : α → Parser β) :
    Except Fault (β × List Token) :=
  match r with
  | .ok (a, rest) => f a rest
  | .error e => .error e

theorem bind_apply (p : Parser α) (f : α → Parser β) (ts : List Token) :
    (p >>= f) ts = resume (p ts) f := by
  cases h : p ts with
  | ok r =>
      rw [bind_of_ok h]
      rfl
  | error e =>
      rw [bind_of_error h]
      rfl

theorem resume_congr {r : Except Fault (α × List Token)} {f g : α → Parser β}
    (h : ∀ a rest, r = .ok (a, rest) → f a rest = g a rest) : resume r f = resume r g := by
  match r with
  | .ok (a, rest) => exact h a rest rfl
  | .error e => rfl

theorem bind_eq_ok_iff {p : Parser α} {f : α → Parser β} {ts : List Token} {b : β}
    {rest : List Token} :
    (p >>= f) ts = .ok (b, rest) ↔ ∃ a mid, p ts = .ok (a, mid) ∧ f a mid = .ok (b, rest) := by
  cases hp : p ts with
  | error e => simp [bind_of_error hp]
  | ok r =>
      obtain ⟨a, mid⟩ := r
      rw [bind_of_ok hp]
      constructor
      · intro h
        exact ⟨a, mid, rfl, h⟩
      · rintro ⟨a', mid', hsame, h⟩
        cases hsame
        exact h

theorem bind_eq_error_iff {p : Parser α} {f : α → Parser β} {ts : List Token} {e : Fault} :
    (p >>= f) ts = .error e ↔
      p ts = .error e ∨ ∃ a mid, p ts = .ok (a, mid) ∧ f a mid = .error e := by
  cases hp : p ts with
  | error e' => simp [bind_of_error hp]
  | ok r =>
      obtain ⟨a, mid⟩ := r
      rw [bind_of_ok hp]
      constructor
      · intro h
        exact .inr ⟨a, mid, rfl, h⟩
      · rintro (h | ⟨a', mid', hsame, h⟩)
        · cases h
        · cases hsame
          exact h

theorem pure_eq_ok_iff {a b : α} {ts rest : List Token} :
    (pure a : Parser α) ts = .ok (b, rest) ↔ b = a ∧ rest = ts := by
  change Except.ok (a, ts) = _ ↔ _
  rw [Except.ok.injEq, Prod.mk.injEq, eq_comm, @eq_comm _ ts]

theorem get_eq_ok_iff {ts us rest : List Token} :
    (get : Parser (List Token)) ts = .ok (us, rest) ↔ us = ts ∧ rest = ts := by
  change Except.ok (ts, ts) = _ ↔ _
  rw [Except.ok.injEq, Prod.mk.injEq, eq_comm, @eq_comm _ ts]

theorem throw_ne_ok {f : Fault} {ts rest : List Token} {a : α} :
    (throw f : Parser α) ts ≠ .ok (a, rest) := by
  intro h
  cases h

theorem expect_eq_ok_iff {k : Kind} {t : Token} {ts rest : List Token} :
    expect k ts = .ok (t, rest) ↔ ts = t :: rest ∧ t.kind = k := by
  cases ts with
  | nil => simp [expect]
  | cons u us =>
      by_cases hu : u.kind = k
      · simp only [expect, if_pos hu, Except.ok.injEq, Prod.mk.injEq, List.cons.injEq]
        constructor
        · rintro ⟨rfl, rfl⟩
          exact ⟨⟨rfl, rfl⟩, hu⟩
        · exact And.left
      · simp only [expect, if_neg hu, List.cons.injEq]
        constructor
        · intro h
          cases h
        · rintro ⟨⟨rfl, rfl⟩, h⟩
          exact absurd h hu

theorem expect_of_ne {k : Kind} {t : Token} (ht : t.kind ≠ k) (ts : List Token) :
    expect k (t :: ts) = .error (.parse (.kind k) (some t.text) t.line) := by
  rw [expect, if_neg ht, unexpected]

/-! ### Expressions -/

theorem primary_of_isLiteral {inner : Parser Tree} {t : Token} {ts : List Token}
    (ht : t.kind.isLiteral) : primary inner (t :: ts) = .ok (.leaf t, ts) := by
  rw [primary, if_pos ht]

theorem primary_of_lparen {inner : Parser Tree} {t : Token} {ts : List Token}
    (ht : t.kind = .lparen) :
    primary inner (t :: ts) = (do let e ← inner; let _ ← expect .rparen; return e) ts := by
  have hlit : ¬t.kind.isLiteral := by rw [ht]; decide
  rw [primary, if_neg hlit, if_pos ht]
  cases hinner : inner ts with
  | error e => rw [bind_of_error hinner]
  | ok r =>
      obtain ⟨e, mid⟩ := r
      rw [bind_of_ok hinner]
      cases hclose : expect .rparen mid with
      | error e => simp only [bind_of_error hclose, hclose]
      | ok r =>
          simp only [bind_of_ok hclose, hclose]
          rfl

theorem primary_eq_ok_iff {inner : Parser Tree} {ts rest : List Token} {e : Tree} :
    primary inner ts = .ok (e, rest) ↔
      (∃ t, ts = t :: rest ∧ t.kind.isLiteral ∧ e = .leaf t) ∨
      (∃ l r mid, ts = l :: mid ∧ l.kind = .lparen ∧ inner mid = .ok (e, r :: rest) ∧
        r.kind = .rparen) := by
  constructor
  · intro h
    cases ts with
    | nil => cases h
    | cons t ts =>
        by_cases hlit : t.kind.isLiteral
        · rw [primary_of_isLiteral hlit] at h
          cases h
          exact .inl ⟨t, rfl, hlit, rfl⟩
        · by_cases hparen : t.kind = .lparen
          · simp only [primary_of_lparen hparen, bind_eq_ok_iff, expect_eq_ok_iff,
              pure_eq_ok_iff] at h
            obtain ⟨e', _, hinner, r, _, ⟨rfl, hr⟩, rfl, rfl⟩ := h
            exact .inr ⟨t, r, ts, rfl, hparen, hinner, hr⟩
          · rw [primary, if_neg hlit, if_neg hparen] at h
            cases h
  · rintro (⟨t, rfl, hlit, rfl⟩ | ⟨l, r, mid, rfl, hl, hinner, hr⟩)
    · exact primary_of_isLiteral hlit
    · rw [primary_of_lparen hl, bind_of_ok hinner]
      exact bind_eq_ok_iff.2 ⟨r, rest, expect_eq_ok_iff.2 ⟨rfl, hr⟩, rfl⟩

theorem unary_of_mem {inner : Parser Tree} {t : Token} {ts : List Token}
    (ht : t.kind ∈ unaryKinds) :
    unary inner (t :: ts) = (do let e ← unary inner; return Tree.unary t e) ts := by
  rw [unary, if_pos ht]
  cases hunary : unary inner ts with
  | error e => rw [bind_of_error hunary]
  | ok r =>
      rw [bind_of_ok hunary]
      rfl

theorem unary_of_not_mem {inner : Parser Tree} {t : Token} {ts : List Token}
    (ht : t.kind ∉ unaryKinds) : unary inner (t :: ts) = primary inner (t :: ts) := by
  rw [unary, if_neg ht]

theorem unary_eq_ok_iff {inner : Parser Tree} {t : Token} {ts rest : List Token} {e : Tree}
    (ht : t.kind ∈ unaryKinds) :
    unary inner (t :: ts) = .ok (e, rest) ↔
      ∃ e', unary inner ts = .ok (e', rest) ∧ e = .unary t e' := by
  simp only [unary_of_mem ht, bind_eq_ok_iff, pure_eq_ok_iff]
  constructor
  · rintro ⟨e', _, hunary, rfl, rfl⟩
    exact ⟨e', hunary, rfl⟩
  · rintro ⟨e', hunary, rfl⟩
    exact ⟨e', rest, hunary, rfl, rfl⟩

theorem chainFrom_of_mem {ks : List Kind} {next : Parser Tree} {n : Nat} {left : Tree}
    {t : Token} {ts : List Token} (ht : t.kind ∈ ks) :
    chainFrom ks next (n + 1) left (t :: ts) =
      (do let right ← next; chainFrom ks next n (.binary t left right)) ts := by
  rw [chainFrom, if_pos ht]
  cases hnext : next ts with
  | error e => rw [bind_of_error hnext]
  | ok r => rw [bind_of_ok hnext]

theorem chainFrom_eq_ok_iff {ks : List Kind} {next : Parser Tree} {n : Nat} {left e : Tree}
    {t : Token} {ts rest : List Token} (ht : t.kind ∈ ks) :
    chainFrom ks next (n + 1) left (t :: ts) = .ok (e, rest) ↔
      ∃ right mid, next ts = .ok (right, mid) ∧
        chainFrom ks next n (.binary t left right) mid = .ok (e, rest) := by
  rw [chainFrom_of_mem ht, bind_eq_ok_iff]

theorem chainFrom_of_nextIn {ks : List Kind} {next : Parser Tree} {n : Nat} {left : Tree}
    {ts : List Token} (h : nextIn ks ts = false) :
    chainFrom ks next n left ts = .ok (left, ts) := by
  cases n with
  | zero => rfl
  | succ n =>
      cases ts with
      | nil => rfl
      | cons t ts =>
          have ht : t.kind ∉ ks := by simpa [nextIn] using h
          rw [chainFrom, if_neg ht]

theorem chain_eq_ok_iff {bound : Nat} {ks : List Kind} {next : Parser Tree} {e : Tree}
    {ts rest : List Token} :
    chain bound ks next ts = .ok (e, rest) ↔
      ∃ left mid, next ts = .ok (left, mid) ∧
        chainFrom ks next bound left mid = .ok (e, rest) :=
  bind_eq_ok_iff

/-! ### Statements -/

theorem nextIn_eq_true_iff {ks : List Kind} {ts : List Token} :
    nextIn ks ts = true ↔ ∃ t us, ts = t :: us ∧ t.kind ∈ ks := by
  cases ts with
  | nil => simp [nextIn]
  | cons t us => simp [nextIn]

theorem identifier?_eq_some_iff {e : Tree} {name : Token} :
    e.identifier? = some name ↔ e = .leaf name ∧ name.kind = .ident := by
  cases e with
  | leaf t =>
      simp only [Tree.identifier?, Option.ite_none_right_eq_some, Option.some.injEq,
        Tree.leaf.injEq]
      constructor
      · rintro ⟨h, rfl⟩
        exact ⟨rfl, h⟩
      · rintro ⟨rfl, h⟩
        exact ⟨h, rfl⟩
  | _ => simp [Tree.identifier?]

theorem assignment_eq_ok_iff {bound : Nat} {ts rest : List Token} {e : Tree} :
    assignment bound ts = .ok (e, rest) ↔
      (expression bound ts = .ok (e, rest) ∧ nextIn [.assign] rest = false) ∨
      (∃ name mark mid value, expression bound ts = .ok (.leaf name, mark :: mid) ∧
        name.kind = .ident ∧ mark.kind = .assign ∧ expression bound mid = .ok (value, rest) ∧
        e = .assign name value) := by
  simp only [assignment, bind_eq_ok_iff, get_eq_ok_iff]
  constructor
  · rintro ⟨target, _, htarget, _, mid, ⟨rfl, rfl⟩, htail⟩
    by_cases hnext : nextIn [.assign] mid
    · rw [if_pos hnext] at htail
      obtain ⟨mark, tail, hexpect, hname⟩ := bind_eq_ok_iff.1 htail
      obtain ⟨rfl, hmark⟩ := expect_eq_ok_iff.1 hexpect
      cases hid : target.identifier? with
      | none =>
          rw [hid] at hname
          exact absurd hname throw_ne_ok
      | some name =>
          rw [hid] at hname
          obtain ⟨rfl, hident⟩ := identifier?_eq_some_iff.1 hid
          obtain ⟨value, _, hvalue, hlast⟩ := bind_eq_ok_iff.1 hname
          obtain ⟨rfl, rfl⟩ := pure_eq_ok_iff.1 hlast
          exact .inr ⟨name, mark, tail, value, htarget, hident, hmark, hvalue, rfl⟩
    · rw [if_neg hnext] at htail
      obtain ⟨rfl, rfl⟩ := pure_eq_ok_iff.1 htail
      exact .inl ⟨htarget, by simpa using hnext⟩
  · rintro (⟨htarget, hnext⟩ | ⟨name, mark, mid, value, htarget, hident, hmark, hvalue, rfl⟩)
    · refine ⟨e, rest, htarget, rest, rest, ⟨rfl, rfl⟩, ?_⟩
      rw [if_neg (by simp [hnext])]
      rfl
    · refine ⟨_, _, htarget, _, _, ⟨rfl, rfl⟩, ?_⟩
      rw [if_pos (nextIn_eq_true_iff.2 ⟨mark, mid, rfl, by simp [hmark]⟩)]
      refine bind_eq_ok_iff.2 ⟨mark, mid, expect_eq_ok_iff.2 ⟨rfl, hmark⟩, ?_⟩
      rw [identifier?_eq_some_iff.2 ⟨rfl, hident⟩]
      exact bind_eq_ok_iff.2 ⟨value, rest, hvalue, rfl⟩

theorem expressionStatement_eq_ok_iff {bound : Nat} {ts rest : List Token} {e : Tree} :
    expressionStatement bound ts = .ok (e, rest) ↔
      ∃ semi, assignment bound ts = .ok (e, semi :: rest) ∧ semi.kind = .semi := by
  simp only [expressionStatement, bind_eq_ok_iff, expect_eq_ok_iff, pure_eq_ok_iff]
  constructor
  · rintro ⟨_, _, hassign, semi, _, ⟨rfl, hsemi⟩, rfl, rfl⟩
    exact ⟨semi, hassign, hsemi⟩
  · rintro ⟨semi, hassign, hsemi⟩
    exact ⟨e, _, hassign, semi, rest, ⟨rfl, hsemi⟩, rfl, rfl⟩

theorem keywordStatement_eq_ok_iff {k : Kind} {make : Tree → Tree} {bound : Nat}
    {ts rest : List Token} {t : Tree} :
    keywordStatement k make bound ts = .ok (t, rest) ↔
      ∃ kw mid arg semi, ts = kw :: mid ∧ kw.kind = k ∧
        expression bound mid = .ok (arg, semi :: rest) ∧ semi.kind = .semi ∧ t = make arg := by
  simp only [keywordStatement, bind_eq_ok_iff, expect_eq_ok_iff, pure_eq_ok_iff]
  constructor
  · rintro ⟨kw, mid, ⟨rfl, hkw⟩, arg, _, harg, semi, _, ⟨rfl, hsemi⟩, rfl, rfl⟩
    exact ⟨kw, mid, arg, semi, rfl, hkw, harg, hsemi, rfl⟩
  · rintro ⟨kw, mid, arg, semi, rfl, hkw, harg, hsemi, rfl⟩
    exact ⟨kw, mid, ⟨rfl, hkw⟩, arg, _, harg, semi, rest, ⟨rfl, hsemi⟩, rfl, rfl⟩

theorem declaration_eq_ok_iff {bound : Nat} {ts rest : List Token} {t : Tree} :
    declaration bound ts = .ok (t, rest) ↔
      ∃ kw name, kw.kind = .kwLet ∧ name.kind = .ident ∧
        ((∃ semi, ts = kw :: name :: semi :: rest ∧ semi.kind = .semi ∧ t = .declare name) ∨
        (∃ mark mid init semi, ts = kw :: name :: mark :: mid ∧ mark.kind = .assign ∧
          expression bound mid = .ok (init, semi :: rest) ∧ semi.kind = .semi ∧
          t = .define name init)) := by
  simp only [declaration, bind_eq_ok_iff, expect_eq_ok_iff, get_eq_ok_iff]
  constructor
  · rintro ⟨kw, _, ⟨rfl, hkw⟩, name, _, ⟨rfl, hname⟩, _, mid, ⟨rfl, rfl⟩, htail⟩
    refine ⟨kw, name, hkw, hname, ?_⟩
    by_cases hnext : nextIn [.assign] mid
    · simp only [if_pos hnext, bind_eq_ok_iff, expect_eq_ok_iff, pure_eq_ok_iff] at htail
      obtain ⟨mark, mid, ⟨rfl, hmark⟩, init, _, hinit, semi, _, ⟨rfl, hsemi⟩, rfl, rfl⟩ := htail
      exact .inr ⟨mark, mid, init, semi, rfl, hmark, hinit, hsemi, rfl⟩
    · simp only [if_neg hnext, bind_eq_ok_iff, expect_eq_ok_iff, pure_eq_ok_iff] at htail
      obtain ⟨semi, _, ⟨rfl, hsemi⟩, rfl, rfl⟩ := htail
      exact .inl ⟨semi, rfl, hsemi, rfl⟩
  · rintro ⟨kw, name, hkw, hname, ⟨semi, rfl, hsemi, rfl⟩ |
      ⟨mark, mid, init, semi, rfl, hmark, hinit, hsemi, rfl⟩⟩
    · refine ⟨kw, _, ⟨rfl, hkw⟩, name, _, ⟨rfl, hname⟩, _, _, ⟨rfl, rfl⟩, ?_⟩
      rw [if_neg (by simp [nextIn, hsemi])]
      exact bind_eq_ok_iff.2 ⟨semi, rest, expect_eq_ok_iff.2 ⟨rfl, hsemi⟩, rfl⟩
    · refine ⟨kw, _, ⟨rfl, hkw⟩, name, _, ⟨rfl, hname⟩, _, _, ⟨rfl, rfl⟩, ?_⟩
      rw [if_pos (nextIn_eq_true_iff.2 ⟨mark, mid, rfl, by simp [hmark]⟩)]
      refine bind_eq_ok_iff.2 ⟨mark, mid, expect_eq_ok_iff.2 ⟨rfl, hmark⟩, ?_⟩
      refine bind_eq_ok_iff.2 ⟨init, _, hinit, ?_⟩
      exact bind_eq_ok_iff.2 ⟨semi, rest, expect_eq_ok_iff.2 ⟨rfl, hsemi⟩, rfl⟩

theorem block_eq_ok_iff {bound : Nat} {statement : Parser Tree} {ts rest : List Token}
    {t : Tree} :
    block bound statement ts = .ok (t, rest) ↔
      ∃ l mid body r, ts = l :: mid ∧ l.kind = .lbrace ∧
        statementsUntil [.rbrace, .eof] statement bound mid = .ok (body, r :: rest) ∧
        r.kind = .rbrace ∧ t = .scope body := by
  simp only [block, bind_eq_ok_iff, expect_eq_ok_iff, pure_eq_ok_iff]
  constructor
  · rintro ⟨l, mid, ⟨rfl, hl⟩, body, _, hbody, r, _, ⟨rfl, hr⟩, rfl, rfl⟩
    exact ⟨l, mid, body, r, rfl, hl, hbody, hr, rfl⟩
  · rintro ⟨l, mid, body, r, rfl, hl, hbody, hr, rfl⟩
    exact ⟨l, mid, ⟨rfl, hl⟩, body, _, hbody, r, rest, ⟨rfl, hr⟩, rfl, rfl⟩

theorem conditional_eq_ok_iff {k : Kind} {make : Tree → Tree → Tree} {bound : Nat}
    {statement : Parser Tree} {ts rest : List Token} {t : Tree} :
    conditional k make bound statement ts = .ok (t, rest) ↔
      ∃ kw l mid cond r tail body, ts = kw :: l :: mid ∧ kw.kind = k ∧ l.kind = .lparen ∧
        expression bound mid = .ok (cond, r :: tail) ∧ r.kind = .rparen ∧
        block bound statement tail = .ok (body, rest) ∧ t = make cond body := by
  simp only [conditional, bind_eq_ok_iff, expect_eq_ok_iff, pure_eq_ok_iff]
  constructor
  · rintro ⟨kw, _, ⟨rfl, hkw⟩, l, mid, ⟨rfl, hl⟩, cond, _, hcond, r, tail, ⟨rfl, hr⟩, body, _,
      hbody, rfl, rfl⟩
    exact ⟨kw, l, mid, cond, r, tail, body, rfl, hkw, hl, hcond, hr, hbody, rfl⟩
  · rintro ⟨kw, l, mid, cond, r, tail, body, rfl, hkw, hl, hcond, hr, hbody, rfl⟩
    exact ⟨kw, _, ⟨rfl, hkw⟩, l, mid, ⟨rfl, hl⟩, cond, _, hcond, r, tail, ⟨rfl, hr⟩, body, rest,
      hbody, rfl, rfl⟩

theorem statementsUntil_of_nextIn {stops : List Kind} {statement : Parser Tree} {n : Nat}
    {ts : List Token} (h : nextIn stops ts = true) :
    statementsUntil stops statement n ts = .ok ([], ts) := by
  cases n with
  | zero => rfl
  | succ n => rw [statementsUntil, if_pos h]

theorem statementsUntil_succ {stops : List Kind} {statement : Parser Tree} {n : Nat}
    {ts : List Token} (h : nextIn stops ts = false) :
    statementsUntil stops statement (n + 1) ts =
      (do
        let t ← statement
        let body ← statementsUntil stops statement n
        return t :: body) ts := by
  rw [statementsUntil, if_neg (by simp [h])]
  cases ht : statement ts with
  | error e => rw [bind_of_error ht]
  | ok r =>
      obtain ⟨t, mid⟩ := r
      rw [bind_of_ok ht]
      cases hbody : statementsUntil stops statement n mid with
      | error e => simp only [bind_of_error hbody, hbody]
      | ok r =>
          simp only [bind_of_ok hbody, hbody]
          rfl

theorem statementsUntil_eq_ok_iff {stops : List Kind} {statement : Parser Tree} {n : Nat}
    {ts rest : List Token} {body : List Tree} (h : nextIn stops ts = false) :
    statementsUntil stops statement (n + 1) ts = .ok (body, rest) ↔
      ∃ t mid tail, statement ts = .ok (t, mid) ∧
        statementsUntil stops statement n mid = .ok (tail, rest) ∧ body = t :: tail := by
  simp only [statementsUntil_succ h, bind_eq_ok_iff, pure_eq_ok_iff]
  constructor
  · rintro ⟨t, mid, ht, tail, _, htail, rfl, rfl⟩
    exact ⟨t, mid, tail, ht, htail, rfl⟩
  · rintro ⟨t, mid, tail, ht, htail, rfl⟩
    exact ⟨t, mid, ht, tail, rest, htail, rfl, rfl⟩

theorem statement_cons {n : Nat} {t : Token} {ts : List Token} :
    statement (n + 1) (t :: ts) =
      match t.kind with
      | .kwLet => declaration (n + 1) (t :: ts)
      | .lbrace => block (n + 1) (statement n) (t :: ts)
      | .kwIf => conditional .kwIf .branch (n + 1) (statement n) (t :: ts)
      | .kwWhile => conditional .kwWhile .loop (n + 1) (statement n) (t :: ts)
      | .kwPrint => keywordStatement .kwPrint .print (n + 1) (t :: ts)
      | .kwLoad => keywordStatement .kwLoad .load (n + 1) (t :: ts)
      | .kwExec => keywordStatement .kwExec .exec (n + 1) (t :: ts)
      | _ => expressionStatement (n + 1) (t :: ts) := by
  obtain ⟨k, line, v⟩ := t
  cases k <;> rfl

theorem program_eq_ok_iff {bound : Nat} {ts rest : List Token} {t : Tree} :
    program bound ts = .ok (t, rest) ↔
      ∃ body last, statementsUntil [.eof] (statement bound) bound ts = .ok (body, [last]) ∧
        last.kind = .eof ∧ t = collapse body ∧ rest = [] := by
  simp only [program, bind_eq_ok_iff, expect_eq_ok_iff, get_eq_ok_iff]
  constructor
  · rintro ⟨body, _, hbody, last, _, ⟨rfl, hlast⟩, _, mid, ⟨rfl, rfl⟩, hend⟩
    cases mid with
    | nil =>
        obtain ⟨rfl, rfl⟩ := pure_eq_ok_iff.1 hend
        exact ⟨body, last, hbody, hlast, rfl, rfl⟩
    | cons u us => exact absurd hend throw_ne_ok
  · rintro ⟨body, last, hbody, hlast, rfl, rfl⟩
    exact ⟨body, _, hbody, last, [], ⟨rfl, hlast⟩, [], [], ⟨rfl, rfl⟩, rfl⟩

end Parser

theorem Tree.ofTokens_eq_ok_iff {ts : List Token} {t : Tree} :
    Tree.ofTokens ts = .ok t ↔
      (∃ last, ts.getLast? = some last ∧ last.kind = .eof) ∧
        ∃ rest, Parser.program ts.length ts = .ok (t, rest) := by
  unfold Tree.ofTokens
  cases hlast : ts.getLast? with
  | none => simp
  | some last =>
      by_cases heof : last.kind = .eof
      · simp only [if_pos heof]
        constructor
        · intro h
          split at h
          · next tree rest hprogram =>
              cases h
              exact ⟨⟨last, rfl, heof⟩, rest, hprogram⟩
          · cases h
        · rintro ⟨-, rest, hprogram⟩
          rw [hprogram]
      · simp only [if_neg heof]
        constructor
        · intro h
          cases h
        · rintro ⟨⟨last', hsame, heof'⟩, -⟩
          cases hsame
          exact absurd heof' heof

theorem Tree.ofText_eq_ok_iff {source : String} {t : Tree} :
    Tree.ofText source = .ok t ↔ ∃ ts, lex source = .ok ts ∧ Tree.ofTokens ts = .ok t := by
  unfold Tree.ofText
  cases lex source <;> simp

end Quill
