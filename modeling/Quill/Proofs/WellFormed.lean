import Quill.Proofs.Grammar
import Quill.Proofs.Tokenization

/-!
Trees of the language proper. The type of trees is wider than the grammar and
that of tokens wider than the lexemes; the well-formed ones are those that a
program text can have. A token is well formed if its payload suits its kind, an
expression if its operators are operators and its leaves are literals, and a
statement if its parts are of the sort that its form asks for. Lines may be any.

Whatever is parsed from a text is well formed (`wellFormed_of_ofText`).
-/

namespace Quill

/-- The kinds whose tokens carry a payload. -/
def Kind.carries : Kind → Bool
  | int | string | ident => true
  | _ => false

/-- The payload suits the kind. Numbers have no sign, strings hold no quote and
names are words that are not reserved; no other token carries anything. -/
def Token.WellFormed (t : Token) : Prop :=
  match t.kind with
  | .int => ∃ n : Int64, t.value = some (.int n) ∧ 0 ≤ n.toInt
  | .string => ∃ s : String, t.value = some (.str s) ∧ '"' ∉ s.toList
  | .ident => ∃ s : String, t.value = some (.str s) ∧ Lexeme.IsWord s.toList ∧
      ∀ k : Kind, k.isKeyword → k.text ≠ s
  | _ => t.value = none

namespace Tree

/-- The operators that stand between two operands. -/
def binaryKinds : List Kind :=
  [.plus, .minus, .star, .slash, .less, .greater, .equal, .notEqual, .lessEqual, .greaterEqual]

inductive WellFormedExpression : Tree → Prop
  | leaf {token : Token} (hkind : token.kind.isLiteral) (htoken : token.WellFormed) :
      WellFormedExpression (.leaf token)
  | unary {op : Token} {operand : Tree} (hop : op.kind ∈ Parser.unaryKinds)
      (hvalue : op.value = none) (hoperand : WellFormedExpression operand) :
      WellFormedExpression (.unary op operand)
  | binary {op : Token} {left right : Tree} (hop : op.kind ∈ binaryKinds)
      (hvalue : op.value = none) (hleft : WellFormedExpression left)
      (hright : WellFormedExpression right) : WellFormedExpression (.binary op left right)

/-- Well-formed statements, of which expressions are one sort. The body of a
conditional is a scope. -/
inductive WellFormed : Tree → Prop
  | scope {body : List Tree} (hbody : ∀ t ∈ body, WellFormed t) : WellFormed (.scope body)
  | declare {name : Token} (hkind : name.kind = .ident) (hname : name.WellFormed) :
      WellFormed (.declare name)
  | define {name : Token} {init : Tree} (hkind : name.kind = .ident) (hname : name.WellFormed)
      (hinit : WellFormedExpression init) : WellFormed (.define name init)
  | branch {cond : Tree} {body : List Tree} (hcond : WellFormedExpression cond)
      (hbody : ∀ t ∈ body, WellFormed t) : WellFormed (.branch cond (.scope body))
  | loop {cond : Tree} {body : List Tree} (hcond : WellFormedExpression cond)
      (hbody : ∀ t ∈ body, WellFormed t) : WellFormed (.loop cond (.scope body))
  | print {arg : Tree} (harg : WellFormedExpression arg) : WellFormed (.print arg)
  | load {arg : Tree} (harg : WellFormedExpression arg) : WellFormed (.load arg)
  | exec {arg : Tree} (harg : WellFormedExpression arg) : WellFormed (.exec arg)
  | assign {name : Token} {value : Tree} (hkind : name.kind = .ident) (hname : name.WellFormed)
      (hvalue : WellFormedExpression value) : WellFormed (.assign name value)
  | expression {e : Tree} (he : WellFormedExpression e) : WellFormed e

end Tree

/-! ### Tokens from text -/

theorem Token.wellFormed_iff {t : Token} (hkind : t.kind.carries = false) :
    t.WellFormed ↔ t.value = none := by
  unfold WellFormed
  split
  · next hk => exact absurd (hk ▸ hkind : Kind.carries _ = false) (by decide)
  · next hk => exact absurd (hk ▸ hkind : Kind.carries _ = false) (by decide)
  · next hk => exact absurd (hk ▸ hkind : Kind.carries _ = false) (by decide)
  · exact Iff.rfl

theorem Kind.carries_of_isKeyword {k : Kind} (hk : k.isKeyword) : k.carries = false := by
  cases k <;> first | rfl | exact absurd hk (by decide)

theorem Kind.carries_of_mem_marks : ∀ k ∈ Lexeme.marks.map Prod.snd, k.carries = false := by
  decide

theorem wellFormed_of_makes {l : List Char} {t : Token} (h : Makes l t) : t.WellFormed := by
  obtain ⟨k, line, v⟩ := t
  cases h with
  | keyword hk => exact (Token.wellFormed_iff (Kind.carries_of_isKeyword hk)).2 rfl
  | name hl hk => exact ⟨_, rfl, by rwa [String.toList_ofList], hk⟩
  | numeral hl hn => exact ⟨_, rfl, by omega⟩
  | quoted hbody => exact ⟨_, rfl, by rwa [String.toList_ofList]⟩
  | mark hl =>
      have hkind := Kind.carries_of_mem_marks _ (List.mem_map_of_mem hl)
      exact (Token.wellFormed_iff hkind).2 rfl

/-- A text that yields tokens at all yields well-formed ones. -/
theorem wellFormed_of_lex {source : String} {ts : List Token} (h : lex source = .ok ts) :
    ∀ t ∈ ts, t.WellFormed := by
  obtain ⟨ls, rest, hcut, rfl | ⟨text, reason, hfail⟩⟩ := exists_cut source.toList
  · obtain ⟨us, line, hmakes, hlex⟩ := lex_of_cut hcut
    rw [h] at hlex
    cases hlex
    intro t hmem
    rcases List.mem_append.1 hmem with hmem | hmem
    · obtain ⟨l, hl⟩ := exists_makes hmakes hmem
      exact wellFormed_of_makes hl
    · rw [List.mem_singleton] at hmem
      subst hmem
      exact (Token.wellFormed_iff rfl).2 rfl
  · obtain ⟨line, -, herr⟩ := lex_of_failure hcut hfail
    rw [h] at herr
    cases herr

/-! ### Trees from tokens -/

namespace Grammar

open Quill.Tree

theorem Level.operators_subset_binaryKinds (level : Level) :
    level.operators ⊆ binaryKinds := by
  cases level <;> decide

theorem binaryKinds_subset_marks : binaryKinds ⊆ Lexeme.marks.map Prod.snd := by
  decide

theorem unaryKinds_subset_marks : Parser.unaryKinds ⊆ Lexeme.marks.map Prod.snd := by
  decide

theorem Expression.wellFormed {level : Level} {w : List Token} {e : Tree}
    (h : Expression level w e) (hw : ∀ t ∈ w, t.WellFormed) : e.WellFormedExpression := by
  induction h with
  | @literal t ht =>
      refine .leaf ?_ (hw t (by simp))
      revert ht
      cases t.kind <;> decide
  | group _ _ _ ih => exact ih fun t ht => hw t (by simp [ht])
  | @sign op w e hop _ ih =>
      have hcarries := Kind.carries_of_mem_marks _ (unaryKinds_subset_marks hop)
      have hvalue := (Token.wellFormed_iff hcarries).1 (hw op (by simp))
      exact .unary hop hvalue (ih fun t ht => hw t (by simp [ht]))
  | single _ ih => exact ih hw
  | @chain level op v w a b _ hop _ iha ihb =>
      have hkind := level.operators_subset_binaryKinds hop
      have hcarries := Kind.carries_of_mem_marks _ (binaryKinds_subset_marks hkind)
      have hvalue := (Token.wellFormed_iff hcarries).1 (hw op (by simp))
      exact .binary hkind hvalue (iha fun t ht => hw t (by simp [ht]))
        (ihb fun t ht => hw t (by simp [ht]))

/-- The tree of a derivation from well-formed tokens is well formed. For a block
it is moreover a scope, which is what conditionals ask of their bodies. -/
theorem Statement.wellFormed {form : Form} {w : List Token} {t : Tree}
    (h : Statement form w t) (hw : ∀ t ∈ w, t.WellFormed) :
    t.WellFormed ∧ (form = .block → ∃ body, t = .scope body ∧ ∀ u ∈ body, u.WellFormed) := by
  induction h with
  | declare _ hname _ =>
      exact ⟨.declare hname (hw _ (by simp)), Form.noConfusion⟩
  | define _ hname _ he _ =>
      exact ⟨.define hname (hw _ (by simp)) (he.wellFormed fun t ht => hw t (by simp [ht])),
        Form.noConfusion⟩
  | @block l r body _ _ _ ih =>
      have hbody : ∀ u ∈ body.map Prod.snd, u.WellFormed := by
        intro u hu
        obtain ⟨p, hp, rfl⟩ := List.mem_map.1 hu
        refine (ih p hp fun t ht => hw t ?_).1
        simp only [List.cons_append, List.mem_cons, List.mem_append, List.mem_flatMap]
        exact .inr (.inl ⟨p, hp, ht⟩)
      exact ⟨.scope hbody, fun _ => ⟨_, rfl, hbody⟩⟩
  | ofBlock _ ih => exact ⟨(ih hw).1, Form.noConfusion⟩
  | simple hk _ he _ =>
      have hexpr := he.wellFormed fun t ht => hw t (by simp [ht])
      refine ⟨?_, Form.noConfusion⟩
      cases hk with
      | print => exact .print hexpr
      | load => exact .load hexpr
      | exec => exact .exec hexpr
  | conditional hk _ _ he _ _ ih =>
      have hexpr := he.wellFormed fun t ht => hw t (by simp [ht])
      obtain ⟨body, rfl, hbody⟩ := (ih fun t ht => hw t (by simp [ht])).2 rfl
      refine ⟨?_, Form.noConfusion⟩
      cases hk with
      | branch => exact .branch hexpr hbody
      | loop => exact .loop hexpr hbody
  | expression he _ =>
      exact ⟨.expression (he.wellFormed fun t ht => hw t (by simp [ht])), Form.noConfusion⟩
  | assign hname hident _ he _ =>
      -- The target may stand in parentheses; it is a leaf of the tree all the same.
      have hleaf := hname.wellFormed fun t ht => hw t (by simp [ht])
      cases hleaf with
      | leaf _ htoken =>
          exact ⟨.assign hident htoken (he.wellFormed fun t ht => hw t (by simp [ht])),
            Form.noConfusion⟩

end Grammar

/-- Parsing a text gives well-formed trees. -/
theorem wellFormed_of_ofText {source : String} {t : Tree} (h : Tree.ofText source = .ok t) :
    t.WellFormed := by
  obtain ⟨ts, hlex, htree⟩ := Tree.ofText_eq_ok_iff.1 h
  have hts := wellFormed_of_lex hlex
  cases Grammar.derives_of_ofTokens htree with
  | one hstatement _ => exact (hstatement.wellFormed fun t ht => hts t (by simp [ht])).1
  | @several body last hbody _ _ =>
      refine .scope fun u hu => ?_
      obtain ⟨p, hp, rfl⟩ := List.mem_map.1 hu
      refine ((hbody p hp).wellFormed fun t ht => hts t ?_).1
      exact List.mem_append_left _ (List.mem_flatMap.2 ⟨p, hp, ht⟩)

end Quill
