import Quill.Proofs.FaultLines
import Quill.Proofs.Purity

/-!
The line of a tree. It is meant to be that of the first token in the tree, and for what is
read from a text it is, and no token of the tree is on a line above it, with one exception.
A scope takes its line from its first statement, so if this is a scope without statements,
or leads to one in the same way, the line is `0`, whatever comes behind.
-/

namespace Quill

/-- A token behind another is on no line above it. -/
theorem Lexed.pairwise_line {line : Nat} {cs : List Char} {ts : List Token}
    (h : Lexed line cs ts) : ts.Pairwise fun t u => t.line ≤ u.line := by
  induction h with
  | nil line => exact List.pairwise_singleton _ _
  | blank _ _ ih => exact ih
  | lexeme _ _ hrest ih =>
      exact .cons (fun u hu => Nat.le_of_add_right_le (hrest.line_mem u hu).1) ih

namespace Tree

/-! ### The tokens of a part -/

/-- What stands together in a part of a list stands together in the list. -/
theorem forall_isInfix_trans {ms : List Tree} {us vs : List Token}
    (h : ∀ m ∈ ms, m.tokens <:+: us) (huv : us <:+: vs) : ∀ m ∈ ms, m.tokens <:+: vs :=
  fun m hm => (h m hm).trans huv

mutual

/-- The tokens of a part of a tree stand together among those of the tree. -/
theorem isInfix_tokens : (t : Tree) → ∀ m ∈ t.nodes, m.tokens <:+: t.tokens
  | .scope body => List.forall_mem_cons.2 ⟨List.infix_rfl, isInfix_tokensAll body⟩
  | .declare _ | .leaf _ => List.forall_mem_singleton.2 List.infix_rfl
  | .define _ e | .assign _ e | .unary _ e =>
      List.forall_mem_cons.2 ⟨List.infix_rfl,
        forall_isInfix_trans (isInfix_tokens e) (List.suffix_cons _ _).isInfix⟩
  | .branch cond body | .loop cond body =>
      List.forall_mem_cons.2 ⟨List.infix_rfl, List.forall_mem_append.2
        ⟨forall_isInfix_trans (isInfix_tokens cond) (List.prefix_append _ _).isInfix,
          forall_isInfix_trans (isInfix_tokens body) (List.suffix_append _ _).isInfix⟩⟩
  | .print arg | .load arg | .exec arg =>
      List.forall_mem_cons.2 ⟨List.infix_rfl, isInfix_tokens arg⟩
  | .binary _ left right =>
      List.forall_mem_cons.2 ⟨List.infix_rfl, List.forall_mem_append.2
        ⟨forall_isInfix_trans (isInfix_tokens left) (List.prefix_append _ _).isInfix,
          forall_isInfix_trans (isInfix_tokens right)
            ((List.suffix_cons _ _).trans (List.suffix_append _ _)).isInfix⟩⟩

theorem isInfix_tokensAll : (ts : List Tree) → ∀ m ∈ nodesAll ts, m.tokens <:+: tokensAll ts
  | [] => nofun
  | t :: ts => List.forall_mem_append.2
      ⟨forall_isInfix_trans (isInfix_tokens t) (List.prefix_append _ _).isInfix,
        forall_isInfix_trans (isInfix_tokensAll ts) (List.suffix_append _ _).isInfix⟩

end

/-! ### The first token -/

/-- The way from a scope to its first statement, taken as often as there is one, ends at a
scope without statements. -/
def opensEmpty : Tree → Bool
  | scope [] => true
  | scope (t :: _) => t.opensEmpty
  | _ => false

theorem line_of_opensEmpty (t : Tree) (h : t.opensEmpty) : t.line = 0 := by
  fun_induction opensEmpty t with
  | case1 => rw [line]
  | case2 t _ ih =>
      rw [line]
      exact ih h
  | case3 => cases h

/-- A tree that begins with an expression takes its first token and its line from there. -/
theorem WellFormedExpression.first_of_append {e t : Tree} (he : e.WellFormedExpression)
    (behind : List Token) (htokens : t.tokens = e.tokens ++ behind) (hline : t.line = e.line) :
    ∃ first rest, t.tokens = first :: rest ∧ t.line = first.line := by
  obtain ⟨first, rest, hfirst, hfirstline⟩ := he.exists_head
  exact ⟨first, rest ++ behind, by rw [htokens, hfirst, List.cons_append],
    by rw [hline, hfirstline]⟩

/-- Unless it opens with an empty scope, a tree of the language has a first token, and its
line is the line of this token. -/
theorem WellFormed.exists_first {t : Tree} (h : t.WellFormed) (ht : t.opensEmpty = false) :
    ∃ first rest, t.tokens = first :: rest ∧ t.line = first.line := by
  induction h with
  | @scope body _ ih =>
      cases body with
      | nil => cases ht
      | cons u us =>
          -- A scope that does not open with an empty one has a first statement that does not.
          obtain ⟨first, rest, htokens, hline⟩ := ih u (by simp) ht
          refine ⟨first, rest ++ tokensAll us, ?_, hline⟩
          rw [tokens, tokensAll, htokens, List.cons_append]
  | declare _ _ => exact ⟨_, _, by rw [tokens], rfl⟩
  | define _ _ _ => exact ⟨_, _, by rw [tokens], rfl⟩
  | branch hcond _ _ => exact hcond.first_of_append _ (by rw [tokens]) rfl
  | loop hcond _ _ => exact hcond.first_of_append _ (by rw [tokens]) rfl
  | print harg => exact harg.first_of_append [] (by rw [tokens, List.append_nil]) rfl
  | load harg => exact harg.first_of_append [] (by rw [tokens, List.append_nil]) rfl
  | exec harg => exact harg.first_of_append [] (by rw [tokens, List.append_nil]) rfl
  | assign _ _ _ => exact ⟨_, _, by rw [tokens], rfl⟩
  | expression he => exact he.first_of_append [] (List.append_nil _).symm rfl

end Tree

/-- The line of a part of a program. The tokens of the part come in the order of the text.
Unless the part opens with an empty scope, its line is that of the first of them, which is
a line of the text, and none of them is on a line above it. If it does, its line is `0`. -/
theorem line_of_mem_nodes {source : String} {ts : List Token} {t : Tree}
    (hlex : lex source = .ok ts) (hparse : Tree.ofTokens ts = .ok t) {m : Tree}
    (hm : m ∈ t.nodes) :
    m.tokens.Sublist ts ∧
    (m.opensEmpty = false → ∃ first rest, m.tokens = first :: rest ∧ m.line = first.line ∧
      1 ≤ m.line ∧ ∀ u ∈ m.tokens, m.line ≤ u.line) ∧
    (m.opensEmpty → m.line = 0) := by
  have hsublist : m.tokens.Sublist ts := by
    have hinfix := t.isInfix_tokens m hm
    rw [(Grammar.derives_of_ofTokens hparse).tokens_eq] at hinfix
    exact hinfix.sublist.trans List.filter_sublist
  refine ⟨hsublist, fun hopen => ?_, m.line_of_opensEmpty⟩
  have hlexed := lexed_of_lexFrom hlex
  have ht : t.WellFormed := wellFormed_of_ofText (Tree.ofText_eq_ok_iff.2 ⟨ts, hlex, hparse⟩)
  obtain ⟨first, rest, htokens, hline⟩ := (ht.of_mem_nodes m hm).exists_first hopen
  have hfirst : first ∈ ts := hsublist.subset (by rw [htokens]; exact List.mem_cons_self)
  -- The order of the lines is that of the text, and a part of the tree inherits it.
  have hpairwise := hlexed.pairwise_line.sublist hsublist
  rw [htokens] at hpairwise ⊢
  refine ⟨first, rest, rfl, hline, ?_, ?_⟩
  · rw [hline]
    exact (hlexed.line_mem first hfirst).1
  · rw [hline]
    exact List.forall_mem_cons.2 ⟨Nat.le_refl _, (List.pairwise_cons.1 hpairwise).1⟩

/-- A scope inside one that opens with an empty scope, on the second line. -/
theorem line_of_mem_nodes_inner :
    let x : Token := ⟨.ident, 2, some (.str "x")⟩
    let y : Token := ⟨.ident, 2, some (.str "y")⟩
    let m : Tree := .scope [.leaf y, .scope []]
    let t : Tree := .scope [.scope [], .leaf x, m]
    ∃ ts, lex "\n{{}x;{y;{}}}" = .ok ts ∧ Tree.ofTokens ts = .ok t ∧ m ∈ t.nodes ∧
      m.tokens.Sublist ts ∧ m.line = 2 ∧ t.tokens = [x, y] ∧ t.line = 0 := by
  intro x y m t
  let mark (k : Kind) : Token := ⟨k, 2, none⟩
  let ts := [mark .lbrace, mark .lbrace, mark .rbrace, x, mark .semi, mark .lbrace, y,
    mark .semi, mark .lbrace, mark .rbrace, mark .rbrace, mark .rbrace, mark .eof]
  have hlex : lex "\n{{}x;{y;{}}}" = .ok ts := by decide +kernel
  have hparse : Tree.ofTokens ts = .ok t := by rfl
  have hm : m ∈ t.nodes := by simp [t, Tree.nodes, m.self_mem_nodes]
  obtain ⟨hsublist, hfirst, -⟩ := line_of_mem_nodes hlex hparse hm
  obtain ⟨first, rest, htokens, hline, -⟩ := hfirst rfl
  obtain ⟨rfl, -⟩ := List.cons.inj htokens
  have hempty := (line_of_mem_nodes hlex hparse t.self_mem_nodes).2.2 rfl
  exact ⟨ts, hlex, hparse, hm, hsublist, hline, rfl, hempty⟩

/-- A program that opens with an empty block has line `0`, while its one token is on line
`1`: the line of a tree is not that of its first token. -/
theorem line_of_program_after_block :
    ¬ ∀ source t, Tree.ofText source = .ok t → ∀ m ∈ t.nodes, ∀ first rest,
      m.tokens = first :: rest → m.line = first.line := by
  intro hclaim
  have hlex : lex "{}x;" = .ok [⟨.lbrace, 1, none⟩, ⟨.rbrace, 1, none⟩,
      ⟨.ident, 1, some (.str "x")⟩, ⟨.semi, 1, none⟩, ⟨.eof, 1, none⟩] := by decide +kernel
  have htree : Tree.ofText "{}x;" =
      .ok (.scope [.scope [], .leaf ⟨.ident, 1, some (.str "x")⟩]) :=
    Tree.ofText_eq_ok_iff.2 ⟨_, hlex, rfl⟩
  have hline := hclaim _ _ htree _ (Tree.self_mem_nodes _) _ [] rfl
  exact absurd hline (by decide)

end Quill
