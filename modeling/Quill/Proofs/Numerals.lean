import Quill.Value

/-!
The texts of numbers. An integer is written with digits and, if it is negative, a sign. A
real is written with these and a point or an `e`, one of which its text always has, so that
no real is written as an integer is. Only the reals that stand for no number have words
for texts, as truth values and `nil` have, so a character that is in no number and in none
of these words can come from a string only.
-/

namespace Quill

/-- The characters that numbers are written with. -/
def isNumeric (c : Char) : Bool :=
  c.isDigit || c = '-' || c = '.' || c = 'e'

theorem isNumeric_of_isDigit {c : Char} (h : c.isDigit) : isNumeric c := by
  simp [isNumeric, h]

theorem notMem_of_isNumeric {s : String} (hs : ∀ d ∈ s.toList, isNumeric d) {c : Char}
    (hc : isNumeric c = false) : c ∉ s.toList := by
  intro hmem
  rw [hs c hmem] at hc
  cases hc

theorem isDigit_or_of_mem_toString (n : Int) :
    ∀ c ∈ (toString n).toList, c.isDigit ∨ c = '-' := by
  intro c hc
  have hdigit {m : Nat} (h : c ∈ Nat.toDigits 10 m) : c.isDigit :=
    Nat.isDigit_of_mem_toDigits (by decide) (by decide) h
  cases n with
  | ofNat m =>
      change c ∈ (Nat.repr m).toList at hc
      rw [Nat.toList_repr] at hc
      exact .inl (hdigit hc)
  | negSucc m =>
      change c ∈ ("-" ++ Nat.repr (m + 1)).toList at hc
      rw [String.toList_append, Nat.toList_repr] at hc
      rcases List.mem_append.1 hc with hsign | hc
      · exact .inr (List.mem_singleton.1 hsign)
      · exact .inl (hdigit hc)

theorem isNumeric_of_mem_toString (n : Int) : ∀ c ∈ (toString n).toList, isNumeric c := by
  intro c hc
  rcases isDigit_or_of_mem_toString n c hc with h | rfl
  · exact isNumeric_of_isDigit h
  · rfl

namespace Decimal

theorem isNumeric_of_mem_significant (d : Decimal) : ∀ c ∈ d.significant, isNumeric c := by
  intro c hc
  have hmem := (List.dropWhile_sublist _).subset (List.mem_reverse.1 hc)
  exact isNumeric_of_isDigit
    (Nat.isDigit_of_mem_toDigits (by decide) (by decide) (List.mem_reverse.1 hmem))

section

variable {digits : List Char} (leading : Int)

theorem isNumeric_of_mem_positional (h : ∀ c ∈ digits, isNumeric c) :
    ∀ c ∈ positional digits leading, isNumeric c := by
  have htake (n : Nat) : ∀ c ∈ digits.take n, isNumeric c :=
    fun c hc => h c (List.mem_of_mem_take hc)
  have hdrop (n : Nat) : ∀ c ∈ digits.drop n, isNumeric c :=
    fun c hc => h c (List.mem_of_mem_drop hc)
  have hzeros (n : Nat) : ∀ c ∈ List.replicate n '0', isNumeric c := by
    intro c hc
    rw [(List.mem_replicate.1 hc).2]
    rfl
  unfold positional
  split
  · dsimp only
    refine List.forall_mem_append.2 ⟨List.forall_mem_append.2 ⟨htake _, hzeros _⟩, ?_⟩
    refine List.forall_mem_cons.2 ⟨rfl, ?_⟩
    split
    · exact List.forall_mem_singleton.2 rfl
    · exact hdrop _
  · exact List.forall_mem_cons.2 ⟨rfl, List.forall_mem_cons.2
      ⟨rfl, List.forall_mem_append.2 ⟨hzeros _, h⟩⟩⟩

theorem point_mem_positional : '.' ∈ positional digits leading := by
  unfold positional
  split <;> simp

theorem isNumeric_of_mem_scientific (h : ∀ c ∈ digits, isNumeric c) :
    ∀ c ∈ scientific digits leading, isNumeric c := by
  have hdrop : ∀ c ∈ digits.drop 1, isNumeric c := fun c hc => h c (List.mem_of_mem_drop hc)
  have hexponent : ∀ c ∈ 'e' :: (toString leading).toList, isNumeric c :=
    List.forall_mem_cons.2 ⟨rfl, isNumeric_of_mem_toString leading⟩
  unfold scientific
  dsimp only
  refine List.forall_mem_append.2 ⟨List.forall_mem_append.2
    ⟨fun c hc => h c (List.mem_of_mem_take hc), ?_⟩, hexponent⟩
  split
  · simp
  · exact List.forall_mem_cons.2 ⟨rfl, hdrop⟩

theorem exponent_mem_scientific : 'e' ∈ scientific digits leading := by
  unfold scientific
  simp

end

theorem isNumeric_of_mem_layOut (l : Layout) (d : Decimal) : ∀ c ∈ d.layOut l, isNumeric c := by
  unfold layOut
  split
  · exact isNumeric_of_mem_positional _ d.isNumeric_of_mem_significant
  · exact isNumeric_of_mem_scientific _ d.isNumeric_of_mem_significant

theorem mark_mem_layOut (l : Layout) (d : Decimal) : '.' ∈ d.layOut l ∨ 'e' ∈ d.layOut l := by
  unfold layOut
  split
  · exact .inl (point_mem_positional _)
  · exact .inr (exponent_mem_scientific _)

end Decimal

/-- The text of a real is one of three words, or it is numeric and has a point or an `e`. -/
theorem Exact.text_eq_or (x : Exact) :
    x.text ∈ ["NaN", "inf", "-inf"] ∨
      (∀ c ∈ x.text.toList, isNumeric c) ∧ ('.' ∈ x.text.toList ∨ 'e' ∈ x.text.toList) := by
  cases x with
  | nan => exact .inl (by decide)
  | infinite negative => exact .inl (by cases negative <;> decide)
  | finite negative mantissa exponent =>
      right
      let magnitude :=
        if mantissa = 0 then ['0', '.', '0']
        else (Interval.ofDouble mantissa exponent).shortest.layOut Layout.real
      have hmagnitude : (∀ c ∈ magnitude, isNumeric c) ∧ ('.' ∈ magnitude ∨ 'e' ∈ magnitude) := by
        dsimp only [magnitude]
        split
        · have hzero : ['0', '.', '0'].all isNumeric := rfl
          exact ⟨List.all_eq_true.1 hzero, .inl (by simp)⟩
        · exact ⟨Decimal.isNumeric_of_mem_layOut _ _, Decimal.mark_mem_layOut _ _⟩
      have htext : (finite negative mantissa exponent).text.toList =
          if negative then '-' :: magnitude else magnitude := String.toList_ofList
      rw [htext]
      split
      · refine ⟨List.forall_mem_cons.2 ⟨rfl, hmagnitude.1⟩, ?_⟩
        exact hmagnitude.2.imp (List.mem_cons_of_mem _) (List.mem_cons_of_mem _)
      · exact hmagnitude

/-- A character that is in no number and in none of the words for values is in no text of
a value, unless the value is a string. -/
theorem Value.notMem_text {c : Char} (hnumeric : isNumeric c = false)
    (hwords : ∀ word ∈ ["nil", "true", "false", "NaN", "inf", "-inf"], c ∉ word.toList)
    {v : Value} (hv : v.type ≠ .string) : c ∉ v.text.toList := by
  cases v with
  | nil => exact hwords "nil" (by simp)
  | bool b => cases b <;> exact hwords _ (by simp [text])
  | int n => exact notMem_of_isNumeric (isNumeric_of_mem_toString n.toInt) hnumeric
  | real x =>
      rcases (Exact.ofFloat x).text_eq_or with hword | ⟨hchars, -⟩
      · exact hwords _ (List.mem_append_right ["nil", "true", "false"] hword)
      · exact notMem_of_isNumeric hchars hnumeric
  | str s => exact absurd rfl hv

end Quill
