import Mathlib.Data.List.Basic
import Quill.Proofs.Grammar

/-!
The tokens of a tree. Parsing drops the tokens that only serve to tell the forms of
statements apart, to set their parts off from each other and to close the text, and
keeps all others; and it keeps them in order, so a tree that is read from left to
right gives back the tokens it was made of, less those that were dropped.
-/

namespace Quill

/-- The kinds that leave nothing in a tree. -/
def Kind.isDropped : Kind → Bool
  | kwLet | kwIf | kwWhile | kwPrint | kwLoad | kwExec | assign | lparen | rparen | lbrace
  | rbrace | semi | eof => true
  | _ => false

/-- The tokens that parsing keeps. -/
def kept (ts : List Token) : List Token := ts.filter fun t => !t.kind.isDropped

@[simp] theorem kept_nil : kept [] = [] := rfl

theorem kept_append (ts us : List Token) : kept (ts ++ us) = kept ts ++ kept us :=
  List.filter_append ts us

theorem kept_cons_of_kept {t : Token} (h : t.kind.isDropped = false) (ts : List Token) :
    kept (t :: ts) = t :: kept ts :=
  List.filter_cons_of_pos (by simp [h])

theorem kept_cons_of_dropped {t : Token} {k : Kind} (hk : t.kind = k) (h : k.isDropped)
    (ts : List Token) : kept (t :: ts) = kept ts :=
  List.filter_cons_of_neg (by simp [hk, h])

theorem kept_concat_of_dropped {t : Token} {k : Kind} (hk : t.kind = k) (h : k.isDropped)
    (ts : List Token) : kept (ts ++ [t]) = kept ts := by
  rw [kept_append, kept_cons_of_dropped hk h, kept_nil, List.append_nil]

namespace Tree

mutual

/-- The tokens that a tree holds, from left to right. -/
def tokens : Tree → List Token
  | scope body => tokensAll body
  | declare name => [name]
  | define name init => name :: tokens init
  | branch cond body | loop cond body => tokens cond ++ tokens body
  | print arg | load arg | exec arg => tokens arg
  | assign name value => name :: tokens value
  | binary op left right => tokens left ++ op :: tokens right
  | unary op operand => op :: tokens operand
  | leaf token => [token]

def tokensAll : List Tree → List Token
  | [] => []
  | t :: ts => tokens t ++ tokensAll ts

end

@[simp] theorem tokensAll_eq_flatMap (ts : List Tree) : tokensAll ts = ts.flatMap tokens := by
  induction ts with
  | nil => rfl
  | cons t ts ih => rw [tokensAll, ih, List.flatMap_cons]

end Tree

namespace Grammar

open Quill.Tree

theorem isDropped_of_literal :
    ∀ k ∈ [Kind.int, .string, .kwTrue, .kwFalse, .ident], k.isDropped = false := by
  decide

theorem isDropped_of_sign : ∀ k ∈ [Kind.minus, .plus, .bang], k.isDropped = false := by
  decide

theorem Level.isDropped_of_mem_operators (level : Level) :
    ∀ k ∈ level.operators, k.isDropped = false := by
  cases level <;> decide

theorem Expression.tokens_eq {level : Level} {w : List Token} {e : Tree}
    (h : Expression level w e) : e.tokens = kept w := by
  induction h with
  | literal ht => rw [tokens, kept_cons_of_kept (isDropped_of_literal _ ht), kept_nil]
  | group hl _ hr ih =>
      rw [kept_concat_of_dropped hr rfl, kept_cons_of_dropped hl rfl, ih]
  | sign hop _ ih => rw [tokens, kept_cons_of_kept (isDropped_of_sign _ hop), ih]
  | single _ ih => exact ih
  | @chain level _ _ _ _ _ _ hop _ iha ihb =>
      rw [tokens, kept_append, kept_cons_of_kept (level.isDropped_of_mem_operators _ hop), iha, ihb]

theorem Simple.tokens_eq {k : Kind} {make : Tree → Tree} (h : Simple k make) :
    k.isDropped ∧ ∀ e, (make e).tokens = e.tokens := by
  cases h <;> exact ⟨rfl, fun e => by rw [tokens]⟩

theorem Conditional.tokens_eq {k : Kind} {make : Tree → Tree → Tree} (h : Conditional k make) :
    k.isDropped ∧ ∀ e t, (make e t).tokens = e.tokens ++ t.tokens := by
  cases h <;> exact ⟨rfl, fun e t => by rw [tokens]⟩

theorem tokens_scope {body : List (List Token × Tree)}
    (h : ∀ p ∈ body, p.2.tokens = kept p.1) :
    (scope (body.map Prod.snd)).tokens = kept (body.flatMap Prod.fst) := by
  rw [tokens, tokensAll_eq_flatMap, List.flatMap_map, kept, List.filter_flatMap]
  exact List.flatMap_congr h

theorem Statement.tokens_eq {form : Form} {w : List Token} {t : Tree}
    (h : Statement form w t) : t.tokens = kept w := by
  induction h with
  | @declare _ name _ hkw hname hsemi =>
      have hkept : name.kind.isDropped = false := by rw [hname]; rfl
      rw [tokens, kept_cons_of_dropped hkw rfl, kept_cons_of_kept hkept,
        kept_cons_of_dropped hsemi rfl, kept_nil]
  | @define _ name _ _ _ _ hkw hname hmark he hsemi =>
      have hkept : name.kind.isDropped = false := by rw [hname]; rfl
      rw [tokens, kept_concat_of_dropped hsemi rfl, kept_cons_of_dropped hkw rfl,
        kept_cons_of_kept hkept, kept_cons_of_dropped hmark rfl, he.tokens_eq]
  | block hl _ hr ih =>
      rw [tokens_scope ih, kept_concat_of_dropped hr rfl, kept_cons_of_dropped hl rfl]
  | ofBlock _ ih => exact ih
  | simple hk hkw he hsemi =>
      obtain ⟨hdropped, hmake⟩ := hk.tokens_eq
      rw [hmake, kept_concat_of_dropped hsemi rfl, kept_cons_of_dropped hkw hdropped, he.tokens_eq]
  | conditional hk hkw hl he hr _ ih =>
      obtain ⟨hdropped, hmake⟩ := hk.tokens_eq
      rw [hmake, kept_append, kept_cons_of_dropped hkw hdropped, kept_cons_of_dropped hl rfl,
        kept_cons_of_dropped hr rfl, he.tokens_eq, ih]
  | expression he hsemi => rw [kept_concat_of_dropped hsemi rfl, he.tokens_eq]
  | assign hname _ hmark he hsemi =>
      -- The name is all that is left of the target, which may stand in parentheses.
      have htarget := hname.tokens_eq
      rw [tokens] at htarget
      rw [tokens, kept_concat_of_dropped hsemi rfl, kept_append, kept_cons_of_dropped hmark rfl,
        ← htarget, he.tokens_eq, List.singleton_append]

/-- A parsed tree holds the tokens it was made of, in order, less those that are dropped. -/
theorem Derives.tokens_eq {ts : List Token} {t : Tree} (h : Derives ts t) :
    t.tokens = kept ts := by
  cases h with
  | one ht hlast => rw [ht.tokens_eq, kept_concat_of_dropped hlast rfl]
  | several hbody _ hlast =>
      rw [tokens_scope fun p hp => (hbody p hp).tokens_eq, kept_concat_of_dropped hlast rfl]

end Grammar

/-- Parsing loses, repeats and reorders nothing. The tokens of the tree, read from left to
right, are those of the list, each with its kind, its line and its payload as they were,
less those of the kinds that leave nothing in a tree. -/
theorem tokens_of_ofTokens {ts : List Token} {t : Tree} (h : Tree.ofTokens ts = .ok t) :
    t.tokens = ts.filter fun token => !token.kind.isDropped :=
  (Grammar.derives_of_ofTokens h).tokens_eq

/-- The target of the assignment stands in parentheses, the first of the two signs is a
unary one, and payloads and lines are such as no text would give. -/
theorem tokens_of_ofTokens_assigned :
    let x : Token := ⟨.ident, 7, none⟩
    let y : Token := ⟨.ident, 2, some (.int 3)⟩
    let one : Token := ⟨.int, 0, some (.str "one")⟩
    let sign : Token := ⟨.minus, 4, some (.str "+")⟩
    let minus : Token := ⟨.minus, 1, none⟩
    let mark (k : Kind) : Token := ⟨k, 5, none⟩
    let ts : List Token := [mark .kwWhile, mark .lparen, mark .lparen, x, mark .rparen,
      mark .rparen, mark .lbrace, mark .lparen, y, mark .rparen, mark .assign, sign, one, minus,
      x, mark .semi, mark .rbrace, mark .eof]
    let t : Tree := .loop (.leaf x) (.scope [.assign y
      (.binary minus (.unary sign (.leaf one)) (.leaf x))])
    Tree.ofTokens ts = .ok t ∧ t.tokens = [x, y, sign, one, minus, x] := by
  intro x y one sign minus mark ts t
  have hparse : Tree.ofTokens ts = .ok t := rfl
  exact ⟨hparse, tokens_of_ofTokens hparse⟩

end Quill
