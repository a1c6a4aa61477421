import Quill.Proofs.ParserSteps

/-!
Parsing looks at the kinds of tokens and at nothing else. So a function on tokens
that keeps their kinds may be applied before parsing or afterwards, to the tokens
in the tree: where one way succeeds the other does, with the same tree, and where
one fails the other fails expecting the same thing. What was found, and on which
line, is for the function to say.

The parsers are compared pairwise, one on the tokens as they are and one on their
images; every way of putting parsers together keeps the two in step.
-/

namespace Quill

namespace Tree

mutual

/-- Apply a function to every token that a tree holds. -/
def mapTokens (f : Token → Token) : Tree → Tree
  | scope body => scope (mapTokensAll f body)
  | declare name => declare (f name)
  | define name init => define (f name) (mapTokens f init)
  | branch cond body => branch (mapTokens f cond) (mapTokens f body)
  | loop cond body => loop (mapTokens f cond) (mapTokens f body)
  | print arg => print (mapTokens f arg)
  | load arg => load (mapTokens f arg)
  | exec arg => exec (mapTokens f arg)
  | assign name value => assign (f name) (mapTokens f value)
  | binary op left right => binary (f op) (mapTokens f left) (mapTokens f right)
  | unary op operand => unary (f op) (mapTokens f operand)
  | leaf token => leaf (f token)

def mapTokensAll (f : Token → Token) : List Tree → List Tree
  | [] => []
  | t :: ts => mapTokens f t :: mapTokensAll f ts

end

@[simp] theorem mapTokensAll_eq_map (f : Token → Token) (ts : List Tree) :
    mapTokensAll f ts = ts.map (mapTokens f) := by
  induction ts with
  | nil => rfl
  | cons t ts ih => rw [mapTokensAll, ih, List.map_cons]

end Tree

/-- The second fault says of the images of tokens what the first says of the tokens.
Both miss the same thing, and what they found in its place is a token and its image,
the tree before a mark and its image, or no token at all. -/
inductive SameBlame (f : Token → Token) : Fault → Fault → Prop
  | nothing (e : Expected) : SameBlame f (.parse e none 0) (.parse e none 0)
  | token (e : Expected) (t : Token) :
      SameBlame f (.parse e (some t.text) t.line) (.parse e (some (f t).text) (f t).line)
  | tree (t : Tree) (mark : Token) :
      SameBlame f (.parse .target (some t.text) mark.line)
        (.parse .target (some (t.mapTokens f).text) (f mark).line)

theorem SameBlame.exists_parse {f : Token → Token} {e e' : Fault} (h : SameBlame f e e') :
    ∃ expected found found' line line',
      e = .parse expected found line ∧ e' = .parse expected found' line' := by
  cases h with
  | nothing e => exact ⟨e, none, none, 0, 0, rfl, rfl⟩
  | token e t => exact ⟨e, _, _, _, _, rfl, rfl⟩
  | tree t mark => exact ⟨.target, _, _, _, _, rfl, rfl⟩

/-- Two results agree: both are values and related, or both are failures to parse
that put the same blame on tokens and their images. -/
inductive Agree (f : Token → Token) {α β : Type} (R : α → β → Prop) :
    Except Fault α → Except Fault β → Prop
  | ok {a : α} {b : β} (h : R a b) : Agree f R (.ok a) (.ok b)
  | error {e e' : Fault} (h : SameBlame f e e') : Agree f R (.error e) (.error e')

namespace Parser

variable {α β : Type}

/-- The second parser does on the images of tokens what the first does on the
tokens, with `act` for the effect that this has on what is parsed. -/
def InStep (f : Token → Token) (act : α → α) (p q : Parser α) : Prop :=
  ∀ ts, Agree f (fun r s => s = (act r.1, r.2.map f)) (p ts) (q (ts.map f))

section

variable {f : Token → Token} {act : α → α} {act' : β → β}

theorem agree_bind {p q : Parser α} {g k : α → Parser β} {ts : List Token}
    (hp : Agree f (fun r s => s = (act r.1, r.2.map f)) (p ts) (q (ts.map f)))
    (hg : ∀ a, InStep f act' (g a) (k (act a))) :
    Agree f (fun r s => s = (act' r.1, r.2.map f)) ((p >>= g) ts) ((q >>= k) (ts.map f)) := by
  cases hpt : p ts with
  | ok r =>
      rw [hpt] at hp
      cases hqt : q (ts.map f) with
      | ok s =>
          rw [hqt] at hp
          obtain ⟨rfl⟩ := hp
          rw [bind_of_ok hpt, bind_of_ok hqt]
          exact hg r.1 r.2
      | error e =>
          rw [hqt] at hp
          cases hp
  | error e =>
      rw [hpt] at hp
      cases hqt : q (ts.map f) with
      | ok s =>
          rw [hqt] at hp
          cases hp
      | error e' =>
          rw [hqt] at hp
          rw [bind_of_error hpt, bind_of_error hqt]
          cases hp with
          | error h => exact .error h

theorem InStep.bind {p q : Parser α} {g k : α → Parser β} (hp : InStep f act p q)
    (hg : ∀ a, InStep f act' (g a) (k (act a))) : InStep f act' (p >>= g) (q >>= k) :=
  fun ts => agree_bind (hp ts) hg

theorem InStep.pure (a : α) : InStep f act (pure a) (pure (act a)) := fun _ => .ok rfl

theorem InStep.get : InStep f (List.map f) MonadState.get MonadState.get := fun _ => .ok rfl

theorem InStep.throw {e e' : Fault} (h : SameBlame f e e') : InStep f act (throw e) (throw e') :=
  fun _ => .error h

theorem sameBlame_unexpected (e : Expected) (ts : List Token) :
    SameBlame f (unexpected e ts) (unexpected e (ts.map f)) := by
  cases ts with
  | nil => exact .nothing e
  | cons t ts => exact .token e t

end

theorem collapse_map (f : Token → Token) (body : List Tree) :
    collapse (body.map (Tree.mapTokens f)) = (collapse body).mapTokens f := by
  match body with
  | [] => rfl
  | [t] => rfl
  | t :: u :: body => simp [collapse, Tree.mapTokens]

/-! ### The parsers of the grammar

From here on the function keeps kinds, and a parser of trees is in step with
another if the tree of the second is the image of that of the first. -/

section

variable {f : Token → Token} (hf : ∀ t, (f t).kind = t.kind)

include hf

theorem nextIn_map (ks : List Kind) (ts : List Token) : nextIn ks (ts.map f) = nextIn ks ts := by
  cases ts with
  | nil => rfl
  | cons t ts => simp only [List.map_cons, nextIn, hf]

theorem inStep_expect (k : Kind) : InStep f f (expect k) (expect k) := by
  intro ts
  cases ts with
  | nil => exact .error (.nothing _)
  | cons t ts =>
      simp only [List.map_cons, expect, hf]
      split
      · exact .ok rfl
      · exact .error (.token _ t)

theorem identifier?_mapTokens (t : Tree) :
    (t.mapTokens f).identifier? = t.identifier?.map f := by
  cases t with
  | leaf token =>
      simp only [Tree.mapTokens, Tree.identifier?, hf]
      split <;> rfl
  | _ => rfl

theorem inStep_primary {p q : Parser Tree} (h : InStep f (Tree.mapTokens f) p q) :
    InStep f (Tree.mapTokens f) (primary p) (primary q) := by
  intro ts
  cases ts with
  | nil => exact .error (.nothing _)
  | cons t ts =>
      by_cases hlit : t.kind.isLiteral
      · have hlit' : (f t).kind.isLiteral := by rwa [hf]
        rw [List.map_cons, primary_of_isLiteral hlit, primary_of_isLiteral hlit']
        exact .ok rfl
      · by_cases hparen : t.kind = .lparen
        · have hparen' : (f t).kind = .lparen := by rwa [hf]
          rw [List.map_cons, primary_of_lparen hparen, primary_of_lparen hparen']
          refine InStep.bind h (fun e => ?_) ts
          exact (inStep_expect hf .rparen).bind fun _ => .pure e
        · simp only [List.map_cons, primary, hf, if_neg hlit, if_neg hparen]
          exact .error (.token _ t)

theorem inStep_unary {p q : Parser Tree} (h : InStep f (Tree.mapTokens f) p q) :
    InStep f (Tree.mapTokens f) (unary p) (unary q) := by
  intro ts
  -- The parser calls itself on the tail, so the two are in step for these tokens
  -- only and not yet for all.
  induction ts with
  | nil => exact .error (.nothing _)
  | cons t ts ih =>
      by_cases ht : t.kind ∈ unaryKinds
      · have ht' : (f t).kind ∈ unaryKinds := by rwa [hf]
        rw [List.map_cons, unary_of_mem ht, unary_of_mem ht']
        exact agree_bind ih fun e => .pure (Tree.unary t e)
      · have ht' : (f t).kind ∉ unaryKinds := by rwa [hf]
        rw [List.map_cons, unary_of_not_mem ht, unary_of_not_mem ht']
        exact inStep_primary hf h (t :: ts)

theorem inStep_chainFrom (ks : List Kind) {p q : Parser Tree}
    (h : InStep f (Tree.mapTokens f) p q) (n : Nat) (left : Tree) :
    InStep f (Tree.mapTokens f) (chainFrom ks p n left)
      (chainFrom ks q n (left.mapTokens f)) := by
  induction n generalizing left with
  | zero => exact fun _ => .ok rfl
  | succ n ih =>
      intro ts
      cases ts with
      | nil => exact .ok rfl
      | cons t ts =>
          by_cases ht : t.kind ∈ ks
          · have ht' : (f t).kind ∈ ks := by rwa [hf]
            rw [List.map_cons, chainFrom_of_mem ht, chainFrom_of_mem ht']
            exact h.bind (fun right => ih (.binary t left right)) ts
          · have ht' : (f t).kind ∉ ks := by rwa [hf]
            simp only [List.map_cons, chainFrom, if_neg ht, if_neg ht']
            exact .ok rfl

theorem inStep_chain (bound : Nat) (ks : List Kind) {p q : Parser Tree}
    (h : InStep f (Tree.mapTokens f) p q) :
    InStep f (Tree.mapTokens f) (chain bound ks p) (chain bound ks q) :=
  h.bind (inStep_chainFrom hf ks h bound)

theorem inStep_expression (n : Nat) :
    InStep f (Tree.mapTokens f) (expression n) (expression n) := by
  induction n with
  | zero => exact fun ts => .error (sameBlame_unexpected _ ts)
  | succ n ih =>
      have hunary := inStep_unary hf ih
      exact inStep_chain hf _ _ (inStep_chain hf _ _ (inStep_chain hf _ _
        (inStep_chain hf _ _ hunary)))

theorem inStep_assignment (bound : Nat) :
    InStep f (Tree.mapTokens f) (assignment bound) (assignment bound) := by
  unfold assignment
  refine (inStep_expression hf bound).bind fun target => ?_
  refine InStep.get.bind fun ts => ?_
  rw [nextIn_map hf]
  split
  · refine (inStep_expect hf .assign).bind fun mark => ?_
    rw [identifier?_mapTokens hf]
    cases target.identifier? with
    -- What was found instead of a name is reported in full, as a tree and not as a token.
    | none => exact .throw (.tree target mark)
    | some name =>
        exact (inStep_expression hf bound).bind fun value => .pure (Tree.assign name value)
  · exact .pure target

theorem inStep_expressionStatement (bound : Nat) :
    InStep f (Tree.mapTokens f) (expressionStatement bound) (expressionStatement bound) :=
  (inStep_assignment hf bound).bind fun t => (inStep_expect hf .semi).bind fun _ => .pure t

theorem inStep_declaration (bound : Nat) :
    InStep f (Tree.mapTokens f) (declaration bound) (declaration bound) := by
  refine (inStep_expect hf .kwLet).bind fun _ => ?_
  refine (inStep_expect hf .ident).bind fun name => ?_
  refine InStep.get.bind fun ts => ?_
  rw [nextIn_map hf]
  split
  · refine (inStep_expect hf .assign).bind fun _ => ?_
    refine (inStep_expression hf bound).bind fun init => ?_
    exact (inStep_expect hf .semi).bind fun _ => .pure (Tree.define name init)
  · exact (inStep_expect hf .semi).bind fun _ => .pure (Tree.declare name)

theorem inStep_keywordStatement {k : Kind} (make : Tree → Tree)
    (hmake : ∀ t, (make t).mapTokens f = make (t.mapTokens f)) (bound : Nat) :
    InStep f (Tree.mapTokens f) (keywordStatement k make bound)
      (keywordStatement k make bound) := by
  refine (inStep_expect hf k).bind fun _ => ?_
  refine (inStep_expression hf bound).bind fun arg => ?_
  refine (inStep_expect hf .semi).bind fun _ => ?_
  rw [← hmake]
  exact .pure (make arg)

theorem inStep_statementsUntil (stops : List Kind) {p q : Parser Tree}
    (h : InStep f (Tree.mapTokens f) p q) (n : Nat) :
    InStep f (List.map (Tree.mapTokens f)) (statementsUntil stops p n)
      (statementsUntil stops q n) := by
  induction n with
  | zero => exact fun _ => .ok rfl
  | succ n ih =>
      intro ts
      cases hnext : nextIn stops ts with
      | true =>
          have hnext' : nextIn stops (ts.map f) = true := by rwa [nextIn_map hf]
          rw [statementsUntil_of_nextIn hnext, statementsUntil_of_nextIn hnext']
          exact .ok rfl
      | false =>
          have hnext' : nextIn stops (ts.map f) = false := by rwa [nextIn_map hf]
          rw [statementsUntil_succ hnext, statementsUntil_succ hnext']
          exact h.bind (fun t => ih.bind fun body => .pure (t :: body)) ts

theorem inStep_block {p q : Parser Tree} (h : InStep f (Tree.mapTokens f) p q) (bound : Nat) :
    InStep f (Tree.mapTokens f) (block bound p) (block bound q) := by
  refine (inStep_expect hf .lbrace).bind fun _ => ?_
  refine (inStep_statementsUntil hf _ h bound).bind fun body => ?_
  refine (inStep_expect hf .rbrace).bind fun _ => ?_
  rw [← Tree.mapTokensAll_eq_map]
  exact .pure (Tree.scope body)

theorem inStep_conditional {k : Kind} (make : Tree → Tree → Tree)
    (hmake : ∀ t u, (make t u).mapTokens f = make (t.mapTokens f) (u.mapTokens f))
    {p q : Parser Tree} (h : InStep f (Tree.mapTokens f) p q) (bound : Nat) :
    InStep f (Tree.mapTokens f) (conditional k make bound p) (conditional k make bound q) := by
  refine (inStep_expect hf k).bind fun _ => ?_
  refine (inStep_expect hf .lparen).bind fun _ => ?_
  refine (inStep_expression hf bound).bind fun cond => ?_
  refine (inStep_expect hf .rparen).bind fun _ => ?_
  refine (inStep_block hf h bound).bind fun body => ?_
  rw [← hmake]
  exact .pure (make cond body)

theorem inStep_statement (n : Nat) :
    InStep f (Tree.mapTokens f) (statement n) (statement n) := by
  induction n with
  | zero => exact fun ts => .error (sameBlame_unexpected _ ts)
  | succ n ih =>
      intro ts
      cases ts with
      | nil => exact inStep_expressionStatement hf (n + 1) []
      | cons t ts =>
          rw [List.map_cons, statement_cons, statement_cons, hf]
          split
          · exact inStep_declaration hf _ (t :: ts)
          · exact inStep_block hf ih _ (t :: ts)
          · exact inStep_conditional hf .branch (fun _ _ => by rw [Tree.mapTokens]) ih _ (t :: ts)
          · exact inStep_conditional hf .loop (fun _ _ => by rw [Tree.mapTokens]) ih _ (t :: ts)
          · exact inStep_keywordStatement hf .print (fun _ => by rw [Tree.mapTokens]) _ (t :: ts)
          · exact inStep_keywordStatement hf .load (fun _ => by rw [Tree.mapTokens]) _ (t :: ts)
          · exact inStep_keywordStatement hf .exec (fun _ => by rw [Tree.mapTokens]) _ (t :: ts)
          · exact inStep_expressionStatement hf _ (t :: ts)

theorem inStep_program (bound : Nat) :
    InStep f (Tree.mapTokens f) (program bound) (program bound) := by
  refine (inStep_statementsUntil hf _ (inStep_statement hf bound) bound).bind fun body => ?_
  refine (inStep_expect hf .eof).bind fun _ => ?_
  refine InStep.get.bind fun ts => ?_
  cases ts with
  | nil =>
      rw [List.map_nil, collapse_map]
      exact .pure (collapse body)
  | cons t ts => exact .throw (.token _ t)

end

end Parser

/-- A function on tokens that keeps kinds may be applied before parsing or after. -/
theorem agree_ofTokens_map {f : Token → Token} (hf : ∀ t, (f t).kind = t.kind)
    (ts : List Token) :
    Agree f (fun t u => u = t.mapTokens f) (Tree.ofTokens ts) (Tree.ofTokens (ts.map f)) := by
  unfold Tree.ofTokens
  rw [List.getLast?_map, List.length_map]
  cases ts.getLast? with
  | none => exact .error (.nothing _)
  | some last =>
      simp only [Option.map_some, hf]
      split
      · have h := Parser.inStep_program hf ts.length ts
        generalize Parser.program ts.length ts = r at h ⊢
        generalize Parser.program ts.length (ts.map f) = r' at h ⊢
        cases h with
        | ok h =>
            subst h
            exact .ok rfl
        | error h => exact .error h
      · exact .error (.token _ last)

/-- Parsing looks at the kinds of tokens only. Where a function keeps them, whatever it
does to lines and payloads, the images of tokens are a program if and only if the tokens
are, and the tree is the image of the tree; and where neither is a program the same thing
is missed in both. -/
theorem ofTokens_map {f : Token → Token} (hf : ∀ t, (f t).kind = t.kind) (ts : List Token) :
    (∀ u, Tree.ofTokens (ts.map f) = .ok u ↔
      ∃ t, Tree.ofTokens ts = .ok t ∧ u = t.mapTokens f) ∧
    ∀ e e', Tree.ofTokens ts = .error e → Tree.ofTokens (ts.map f) = .error e' →
      ∃ expected found found' line line',
        e = .parse expected found line ∧ e' = .parse expected found' line' := by
  have hagree := agree_ofTokens_map hf ts
  generalize Tree.ofTokens ts = r at hagree ⊢
  generalize Tree.ofTokens (ts.map f) = r' at hagree ⊢
  cases hagree with
  | @ok t u h => simp [h, eq_comm]
  | error h =>
      refine ⟨fun u => by simp, ?_⟩
      rintro _ _ ⟨⟩ ⟨⟩
      exact h.exists_parse

/-- The function writes the text of a token into its payload and moves it down. The second
list misses the name before its `=` both ways. -/
theorem ofTokens_map_moved :
    let f : Token → Token := fun t => ⟨t.kind, t.line + 3, some (.str t.text)⟩
    let mark (k : Kind) : Token := ⟨k, 2, none⟩
    let x : Token := ⟨.ident, 1, some (.str "x")⟩
    let one : Token := ⟨.int, 1, some (.int 1)⟩
    let ts : List Token := [x, mark .assign, one, mark .plus, x, mark .semi, mark .eof]
    let us : List Token := [one, mark .assign, x, mark .semi, mark .eof]
    (∀ t, (f t).kind = t.kind) ∧
      Tree.ofTokens ts = .ok (.assign x (.binary (mark .plus) (.leaf one) (.leaf x))) ∧
      Tree.ofTokens (ts.map f) =
        .ok (.assign (f x) (.binary (f (mark .plus)) (.leaf (f one)) (.leaf (f x)))) ∧
      Tree.ofTokens us = .error (.parse .target (some "1") 2) ∧
      ∃ found line, Tree.ofTokens (us.map f) = .error (.parse .target found line) := by
  intro f mark x one ts us
  have hf : ∀ t, (f t).kind = t.kind := fun _ => rfl
  have hts : Tree.ofTokens ts = .ok (.assign x (.binary (mark .plus) (.leaf one) (.leaf x))) := rfl
  have hus : Tree.ofTokens us = .error (.parse .target (some "1") 2) := rfl
  refine ⟨hf, hts, ((ofTokens_map hf ts).1 _).2 ⟨_, hts, ?_⟩, hus, ?_⟩
  · simp only [Tree.mapTokens]
  · cases hresult : Tree.ofTokens (us.map f) with
    | ok u => cases hresult
    | error e =>
        obtain ⟨expected, found, found', line, line', hsame, rfl⟩ :=
          (ofTokens_map hf us).2 _ _ hus hresult
        cases hsame
        exact ⟨found', line', rfl⟩

/-! ### Leaving out lines -/

/-- A token without the line it came from. -/
def Token.unplaced (t : Token) : Token := { t with line := 0 }

theorem Token.kind_unplaced (t : Token) : t.unplaced.kind = t.kind := rfl

theorem Token.text_unplaced (t : Token) : t.unplaced.text = t.text := rfl

/-- A tree without the lines of its tokens; two trees that are the same in this
sense differ in lines and in nothing else. -/
def Tree.unplaced (t : Tree) : Tree := t.mapTokens Token.unplaced

namespace Tree

theorem wrap_mapTokens (f : Token → Token) (t : Tree) (s : String) :
    wrap (t.mapTokens f) s = wrap t s := by
  cases t <;> rfl

mutual

/-- The lines of its tokens do not show in a tree that is written out. -/
theorem write_unplaced (p : Place) :
    (t : Tree) → write p (t.mapTokens Token.unplaced) = write p t
  | .scope body => by rw [mapTokens, write, write, writeAll_unplaced]
  | .declare name => by rw [mapTokens, write, write, Token.text_unplaced]
  | .define name init => by
      rw [mapTokens, write, write, Token.text_unplaced, write_unplaced .inline init]
  | .branch cond body => by
      rw [mapTokens, write, write, write_unplaced .inline cond, write_unplaced _ body]
  | .loop cond body => by
      rw [mapTokens, write, write, write_unplaced .inline cond, write_unplaced _ body]
  | .print arg => by rw [mapTokens, write, write, write_unplaced .inline arg]
  | .load arg => by rw [mapTokens, write, write, write_unplaced .inline arg]
  | .exec arg => by rw [mapTokens, write, write, write_unplaced .inline arg]
  | .assign name value => by
      rw [mapTokens, write, write, Token.text_unplaced, write_unplaced .inline value]
  | .binary op left right => by
      rw [mapTokens, write, write, Token.kind_unplaced, wrap_mapTokens, wrap_mapTokens,
        write_unplaced .inline left, write_unplaced .inline right]
  | .unary op operand => by
      rw [mapTokens, write, write, Token.kind_unplaced, wrap_mapTokens,
        write_unplaced .inline operand]
  | .leaf token => by rw [mapTokens, write, write, Token.text_unplaced]

theorem writeAll_unplaced (depth : Nat) :
    (ts : List Tree) → writeAll depth (mapTokensAll Token.unplaced ts) = writeAll depth ts
  | [] => rfl
  | t :: ts => by
      rw [mapTokensAll, writeAll, writeAll, write_unplaced (.line depth) t, writeAll_unplaced]

end

theorem text_unplaced (t : Tree) : t.unplaced.text = t.text := write_unplaced .inline t

end Tree

/-- Token lists that differ in lines only have trees that differ in lines only. -/
theorem exists_ofTokens_of_unplaced {ts us : List Token} {t : Tree}
    (h : us.map Token.unplaced = ts.map Token.unplaced) (hts : Tree.ofTokens ts = .ok t) :
    ∃ u, Tree.ofTokens us = .ok u ∧ u.unplaced = t.unplaced := by
  have hleft := agree_ofTokens_map Token.kind_unplaced us
  have hright := agree_ofTokens_map Token.kind_unplaced ts
  rw [hts, ← h] at hright
  generalize Tree.ofTokens us = r at hleft ⊢
  generalize Tree.ofTokens (us.map Token.unplaced) = r' at hleft hright
  cases hright with
  | ok hu =>
      cases hleft with
      | @ok u _ hu' => exact ⟨u, rfl, by rw [Tree.unplaced, ← hu', hu, Tree.unplaced]⟩

end Quill
