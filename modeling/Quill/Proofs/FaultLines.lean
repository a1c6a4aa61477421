import Quill.Proofs.Concatenation
import Quill.Proofs.Formatting
import Quill.Proofs.Origins
import Quill.Proofs.TreeTokens

/-!
The lines that faults name. A fault of an operator carries the kind and the line of
the operator's token, and the fault of a line that could not be printed the line of the
first token of what was to be printed. An evaluation that takes in no other text only
comes to parts of the tree it began with, so these tokens are tokens of the program, and
the lines are lines of its text.
-/

namespace Quill

open Eval

variable {H : Type}

/-- The fault is about the token: it names the line of the token, and its operator, if
it names one, is the token's. -/
inductive Fault.IsAbout : Fault → Token → Prop
  | typeMismatch {op : Token} (hop : op.value = none) (left right : ValueType) :
      IsAbout (.typeMismatch op.kind left right op.line) op
  | overflow {op : Token} (hop : op.value = none) : IsAbout (.overflow op.kind op.line) op
  | badOperand {op : Token} (hop : op.kind = .minus) (found : ValueType) :
      IsAbout (.badOperand op.kind found op.line) op
  | divisionByZero {op : Token} (hop : op.kind = .slash) : IsAbout (.divisionByZero op.line) op
  | output {token : Token} (reason : String) : IsAbout (.output reason token.line) token

theorem Fault.IsAbout.line?_eq {f : Fault} {token : Token} (h : f.IsAbout token) :
    f.line? = some token.line := by
  cases h <;> rfl

theorem Token.text_of_value_eq_none {t : Token} (h : t.value = none) : t.text = t.kind.text := by
  rw [text, h]

/-! ### Operators -/

namespace Eval

variable {op : Token} {w w' : World H} {f : Fault}

theorem isAbout_of_binary {a b : Value} (hop : op.kind ∈ Tree.binaryKinds)
    (hvalue : op.value = none) (h : binary op a b w = .fault f w') : f.IsAbout op := by
  obtain ⟨o, ho, hfails⟩ := fault_of_binary hop h
  have hkind : o.kind = op.kind := (BinaryOp.ofKind?_eq_some_iff _ _).1 ho
  cases hfails with
  | mismatch left right =>
      rw [hkind]
      exact .typeMismatch hvalue left right
  | overflow =>
      rw [hkind]
      exact .overflow hvalue
  | divisionByZero hdiv =>
      subst hdiv
      exact .divisionByZero hkind.symm

theorem isAbout_of_unary {a : Value} (hop : op.kind ∈ Parser.unaryKinds)
    (hvalue : op.value = none) (h : unary op a w = .fault f w') : f.IsAbout op := by
  obtain ⟨o, ho, hfails⟩ := fault_of_unary hop h
  have hkind : o.kind = op.kind := (UnaryOp.ofKind?_eq_some_iff _ _).1 ho
  cases hfails with
  | badOperand hneg found =>
      subst hneg
      rw [hkind]
      exact .badOperand hkind.symm found
  | overflow _ =>
      rw [hkind]
      exact .overflow hvalue

end Eval

/-! ### Trees -/

variable [HostLike H]

namespace Tree

variable {t u e : Tree} {w v : World H} {f : Fault}

/-- The line of an expression is that of its first token. -/
theorem WellFormedExpression.exists_head (h : e.WellFormedExpression) :
    ∃ token rest, e.tokens = token :: rest ∧ token.line = e.line := by
  induction h with
  | @leaf token _ _ => exact ⟨token, [], by rw [tokens], by rw [line]⟩
  | @unary op operand _ _ _ _ => exact ⟨op, operand.tokens, by rw [tokens], by rw [line]⟩
  | @binary op left right _ _ _ _ ih _ =>
      obtain ⟨token, rest, htokens, hline⟩ := ih
      exact ⟨token, rest ++ op :: right.tokens, by rw [tokens, htokens, List.cons_append],
        by rw [line, hline]⟩

/-- A well-formed tree on no other text raises faults about its own tokens, those of
names apart. -/
theorem Raises.isAbout (h : t.Raises w f) (ht : t.WellFormed) (hself : t.isSelfContained) :
    (∃ x, f = .nameNotFound x) ∨ ∃ token ∈ t.tokens, f.IsAbout token := by
  have hplain : f.isPlain := by
    rcases h.isPlain_or ht with hplain | ⟨hnot, -⟩
    · exact hplain
    · rw [hself] at hnot
      cases hnot
  cases h with
  | declare _ => cases hplain
  | define _ => cases hplain
  | target _ => cases hplain
  | unbound _ _ _ => exact .inl ⟨_, rfl⟩
  | output =>
      cases ht with
      | print harg =>
          obtain ⟨token, rest, htokens, hline⟩ := harg.exists_head
          rw [tokens, htokens, ← hline]
          exact .inr ⟨token, by simp, .output _⟩
      | expression he => cases he
  | path => cases hplain
  | text => cases hplain
  | file => cases hplain
  | program hands _ => cases hands <;> cases hself
  | @binary op _ _ _ _ _ _ _ _ h =>
      cases ht with
      | expression he =>
          cases he with
          | binary hop hvalue _ _ =>
              exact .inr ⟨op, by simp [tokens], isAbout_of_binary hop hvalue h⟩
  | @unary op _ _ _ _ _ _ h =>
      cases ht with
      | expression he =>
          cases he with
          | unary hop hvalue _ => exact .inr ⟨op, by simp [tokens], isAbout_of_unary hop hvalue h⟩
  | leaf h =>
      cases ht with
      | expression he =>
          cases he with
          | leaf hkind htoken => exact .inl (fault_of_leaf hkind htoken h)

/-- What is entered from a tree on no other text is a part of the tree. -/
theorem Enters.tokens_subset (h : t.Enters w u v) (hself : t.isSelfContained) :
    u.tokens ⊆ t.tokens := by
  cases h with
  | member _ =>
      intro token htoken
      rw [tokens, tokensAll_eq_flatMap]
      exact List.mem_flatMap.2 ⟨u, by simp, htoken⟩
  | init _ => simp [tokens]
  | branchCond => simp [tokens]
  | branchBody _ _ => simp [tokens]
  | loopCond => simp [tokens]
  | loopBody _ _ => simp [tokens]
  | nextRound _ _ _ => exact List.Subset.refl _
  | printed => simp [tokens]
  | path => cases hself
  | text => cases hself
  | program hands _ => cases hands <;> cases hself
  | value => simp [tokens]
  | left => simp [tokens]
  | right _ => simp [tokens]
  | operand => simp [tokens]

theorem Visits.tokens_subset (h : t.Visits w u v) (hself : t.isSelfContained) :
    u.tokens ⊆ t.tokens := by
  induction h with
  | here t w => exact List.Subset.refl _
  | inside henters _ ih =>
      exact List.Subset.trans (ih (henters.isSelfContained hself)) (henters.tokens_subset hself)

end Tree

/-- However the evaluation of a well-formed tree on no other text fails, it is over a
name or about a token of the tree. -/
theorem isAbout_of_eval {n : Nat} {t : Tree} {w w' : World H} {f : Fault}
    (h : eval n t w = .fault f w') (ht : t.WellFormed) (hself : t.isSelfContained) :
    (∃ x, f = .nameNotFound x) ∨ ∃ token ∈ t.tokens, f.IsAbout token := by
  obtain ⟨u, v, hvisits, hraises⟩ := exists_raises h
  obtain ⟨hu, huself⟩ := hvisits.wellFormed ht
  rcases hraises.isAbout hu (huself hself) with hname | ⟨token, htoken, habout⟩
  · exact .inl hname
  · exact .inr ⟨token, hvisits.tokens_subset hself htoken, habout⟩

/-! ### Texts -/

/-- Tokens are on lines of their text. -/
theorem Lexed.line_mem {line : Nat} {cs : List Char} {ts : List Token} (h : Lexed line cs ts) :
    ∀ t ∈ ts, line ≤ t.line ∧ t.line ≤ line + lineEnds cs := by
  induction h with
  | nil line => simp [lineEnds]
  | @blank line c cs ts _ _ ih =>
      intro t ht
      have hcount : lineEnds (c :: cs) = lineEnds [c] + lineEnds cs := lineEnds_append [c] cs
      obtain ⟨hlow, hhigh⟩ := ih t ht
      omega
  | @lexeme line c cs rest l ts _ hread _ ih =>
      have hcount : lineEnds (c :: cs) = lineEnds l.text + lineEnds rest := by
        rw [← lineEnds_append, Lexeme.text_append_of_read hread]
      intro t ht
      rcases List.mem_cons.1 ht with rfl | ht
      · exact ⟨Nat.le_refl _, Nat.le_add_right _ _⟩
      · obtain ⟨hlow, hhigh⟩ := ih t ht
        omega

/-- Faults at run time name what is on their line. If a program that takes in no other
text fails at an operator, then its tokens have this operator on the line of the fault:
the one that is named, the minus sign for an operand that has no negation, and the
slash for a division by zero. If it fails to print, some token is on that line. So the
line, where the fault has one, is a line of the text. -/
theorem fault_on_line_of_token {source : String} {ts : List Token} {t : Tree}
    (hlex : lex source = .ok ts) (hparse : Tree.ofTokens ts = .ok t) (hself : t.isSelfContained)
    {w w' : World H} {f : Fault} (h : Ends source w (.fault f w')) :
    (∀ op left right line, f = .typeMismatch op left right line ∨ f = .overflow op line →
      ∃ u ∈ ts, u.line = line ∧ u.kind = op ∧ u.text = op.text) ∧
    (∀ op found line, f = .badOperand op found line →
      ∃ u ∈ ts, u.line = line ∧ u.kind = .minus) ∧
    (∀ line, f = .divisionByZero line → ∃ u ∈ ts, u.line = line ∧ u.kind = .slash) ∧
    (∀ reason line, f = .output reason line → ∃ u ∈ ts, u.line = line) ∧
    ∀ line, f.line? = some line → 1 ≤ line ∧ line ≤ 1 + lineEnds source.toList := by
  have htree : Tree.ofText source = .ok t := Tree.ofText_eq_ok_iff.2 ⟨ts, hlex, hparse⟩
  obtain ⟨-, n, hn⟩ := h
  rw [run_of_ofText htree] at hn
  have htokens : t.tokens ⊆ ts := by
    rw [(Grammar.derives_of_ofTokens hparse).tokens_eq]
    exact List.filter_sublist.subset
  rcases isAbout_of_eval hn (wellFormed_of_ofText htree) hself with ⟨x, rfl⟩ | ⟨u, hu, habout⟩
  · simp [Fault.line?]
  · have hmem : u ∈ ts := htokens hu
    refine ⟨?_, ?_, ?_, ?_, ?_⟩
    · rintro op left right line (rfl | rfl)
      · cases habout with
        | typeMismatch hop _ _ => exact ⟨u, hmem, rfl, rfl, u.text_of_value_eq_none hop⟩
      · cases habout with
        | overflow hop => exact ⟨u, hmem, rfl, rfl, u.text_of_value_eq_none hop⟩
    · rintro op found line rfl
      cases habout with
      | badOperand hop _ => exact ⟨u, hmem, rfl, hop⟩
    · rintro line rfl
      cases habout with
      | divisionByZero hop => exact ⟨u, hmem, rfl, hop⟩
    · rintro reason line rfl
      cases habout with
      | output _ => exact ⟨u, hmem, rfl⟩
    · intro line hline
      rw [habout.line?_eq] at hline
      cases hline
      exact (lexed_of_lexFrom hlex).line_mem u hmem

/-- The product is written over two lines, inside a block, and the fault is on the line
of its operator. -/
theorem fault_on_line_of_token_star :
    let w : World := .initial (.ofFiles fun _ => none)
    let a : Token := ⟨.ident, 1, some (.str "a")⟩
    let a' : Token := ⟨.ident, 2, some (.str "a")⟩
    let one : Token := ⟨.int, 1, some (.int 1)⟩
    let star : Token := ⟨.star, 3, none⟩
    let yes : Token := ⟨.kwTrue, 3, none⟩
    let ts : List Token := [⟨.kwLet, 1, none⟩, a, ⟨.assign, 1, none⟩, one, ⟨.semi, 1, none⟩,
      ⟨.lbrace, 2, none⟩, a', ⟨.assign, 2, none⟩, a', star, yes, ⟨.semi, 3, none⟩,
      ⟨.rbrace, 3, none⟩, ⟨.eof, 3, none⟩]
    lex "let a=1;\n\x7ba=a\n*true;\x7d" = .ok ts ∧
    Ends "let a=1;\n\x7ba=a\n*true;\x7d" w (.fault (.typeMismatch .star .int .bool 3) w) ∧
    (∃ u ∈ ts, u.line = 3 ∧ u.kind = .star ∧ u.text = "*") ∧
    3 ≤ 1 + lineEnds "let a=1;\n\x7ba=a\n*true;\x7d".toList := by
  intro w a a' one star yes ts
  let t : Tree := .scope [.define a (.leaf one),
    .scope [.assign a' (.binary star (.leaf a') (.leaf yes))]]
  have hlex : lex "let a=1;\n\x7ba=a\n*true;\x7d" = .ok ts := by decide +kernel
  have hparse : Tree.ofTokens ts = .ok t := rfl
  have htree : Tree.ofText "let a=1;\n\x7ba=a\n*true;\x7d" = .ok t :=
    Tree.ofText_eq_ok_iff.2 ⟨ts, hlex, hparse⟩
  have hends : Ends "let a=1;\n\x7ba=a\n*true;\x7d" w
      (.fault (.typeMismatch .star .int .bool 3) w) := by
    refine ⟨by simp, 5, ?_⟩
    rw [run_of_ofText htree]
    rfl
  obtain ⟨hop, -, -, -, hline⟩ := fault_on_line_of_token hlex hparse rfl hends
  exact ⟨hlex, hends, hop _ _ _ _ (.inl rfl), (hline 3 rfl).2⟩

end Quill
