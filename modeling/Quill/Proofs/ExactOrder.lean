import Mathlib
import Quill.Double.Exact

/-!
The line of exact values. A double other than the undefined one stands for a
rational number or for one of two ends beyond all rationals, so the values of
doubles and of machine integers lie on one line. The comparisons are computed in
integers, on whole parts, remainders and multiples of the least double; here they
are shown to be the order of that line (`order_eq`, `orderInt_eq`).

A number is cut toward zero by dropping what is behind the point, so its whole part
lies on the side of zero, by less than one. That is why a machine integer that
differs from the whole part compares with the number as it does with the whole part,
and why only a remainder can decide if they are equal.
-/

namespace Quill.Exact

/-- The rationals with an end added on either side. -/
abbrev Line := WithBot (WithTop ℚ)

/-- The place of a number on the line. -/
def place (q : ℚ) : Line := WithBot.some (WithTop.some q)

/-- The number `± mantissa * 2 ^ exponent`. -/
def rational (negative : Bool) (mantissa : Nat) (exponent : Int) : ℚ :=
  signed negative mantissa * 2 ^ exponent

/-- Where a value lies, if it is defined. -/
def value? : Exact → Option Line
  | nan => none
  | infinite negative => some (if negative then ⊥ else ⊤)
  | finite s m e => some (place (rational s m e))

/-- A number cut toward zero. -/
def truncated (q : ℚ) : ℤ := if q < 0 then ⌈q⌉ else ⌊q⌋

/-! ### Whole parts -/

theorem two_zpow (e : Int) :
    (2 : ℚ) ^ e = ((Nat.pow 2 e.toNat : ℕ) : ℚ) / (Nat.pow 2 (-e).toNat : ℕ) := by
  obtain ⟨n, rfl | rfl⟩ := e.eq_nat_or_neg
  · simp
  · simp

/-- The value as a quotient of the two numbers that the whole part is computed from. -/
theorem rational_eq (s : Bool) (m : Nat) (e : Int) :
    rational s m e = signed s 1 *
      (((m * Nat.pow 2 e.toNat : ℕ) : ℚ) / (Nat.pow 2 (-e).toNat : ℕ)) := by
  rw [rational, two_zpow]
  cases s <;> simp [signed] <;> ring

theorem whole_eq (s : Bool) (m : Nat) (e : Int) :
    whole s m e = signed s 1 * ((m * Nat.pow 2 e.toNat / Nat.pow 2 (-e).toNat : ℕ) : ℤ) := by
  cases s <;> simp [whole, signed]

/-- A whole part lies on the side of zero, by less than one. -/
theorem whole_bounds (s : Bool) (m : Nat) (e : Int) :
    if s then rational s m e ≤ 0 ∧ rational s m e ≤ whole s m e ∧
        (whole s m e : ℚ) - 1 < rational s m e
    else 0 ≤ rational s m e ∧ (whole s m e : ℚ) ≤ rational s m e ∧
        rational s m e < whole s m e + 1 := by
  rw [rational_eq, whole_eq]
  generalize m * Nat.pow 2 e.toNat = a
  generalize Nat.pow 2 (-e).toNat = b
  have hnonneg : (0 : ℚ) ≤ a / b := by positivity
  have hfloor : ⌊(a : ℚ) / b⌋₊ = a / b := Nat.floor_div_eq_div a b
  have hle : ((a / b : ℕ) : ℚ) ≤ a / b := hfloor ▸ Nat.floor_le hnonneg
  have hlt : (a : ℚ) / b < (a / b : ℕ) + 1 := hfloor ▸ Nat.lt_floor_add_one _
  generalize a / b = k at hle hlt ⊢
  cases s
  · simp only [signed, Bool.false_eq_true, if_false]
    push_cast
    exact ⟨by linarith, by linarith, by linarith⟩
  · simp only [signed, if_true]
    push_cast
    exact ⟨by linarith, by linarith, by linarith⟩

theorem whole_eq_truncated (s : Bool) (m : Nat) (e : Int) :
    whole s m e = truncated (rational s m e) := by
  have hbounds := whole_bounds s m e
  generalize rational s m e = q at hbounds ⊢
  generalize whole s m e = t at hbounds ⊢
  cases s
  · obtain ⟨hnonneg, hle, hlt⟩ := hbounds
    rw [truncated, if_neg (not_lt.2 hnonneg)]
    exact (Int.floor_eq_iff.2 ⟨hle, hlt⟩).symm
  · obtain ⟨hnonpos, hle, hlt⟩ := hbounds
    rcases hnonpos.lt_or_eq with hneg | rfl
    · rw [truncated, if_pos hneg]
      exact (Int.ceil_eq_iff.2 ⟨hlt, hle⟩).symm
    · have hle' : 0 ≤ t := by exact_mod_cast hle
      have hlt' : t - 1 < 0 := by exact_mod_cast hlt
      simp only [truncated, lt_irrefl, if_false, Int.floor_zero]
      omega

/-! ### Remainders -/

theorem hasFraction_eq_true_iff (s : Bool) (m : Nat) (e : Int) :
    hasFraction m e = true ↔ (whole s m e : ℚ) ≠ rational s m e := by
  have hmod : m % Nat.pow 2 (-e).toNat = m * Nat.pow 2 e.toNat % Nat.pow 2 (-e).toNat := by
    rcases le_total 0 e with he | he
    · simp [Int.toNat_of_nonpos (Int.neg_nonpos_of_nonneg he), Nat.mod_one]
    · simp [Int.toNat_of_nonpos he]
  have hpos : 0 < Nat.pow 2 (-e).toNat := Nat.pow_pos (by decide)
  have hsign : (signed s 1 : ℚ) ≠ 0 := by cases s <;> simp [signed]
  rw [hasFraction, decide_eq_true_iff, hmod, rational_eq, whole_eq]
  generalize m * Nat.pow 2 e.toNat = a
  generalize Nat.pow 2 (-e).toNat = b at hpos ⊢
  push_cast
  rw [Ne, Ne, mul_right_inj' hsign, eq_div_iff (by positivity), not_iff_not]
  norm_cast
  rw [← Nat.dvd_iff_mod_eq_zero]
  exact ⟨Nat.div_mul_cancel, fun h => ⟨a / b, by rw [Nat.mul_comm, h]⟩⟩

theorem orderOfRemainder_eq (s : Bool) (m : Nat) (e : Int) :
    orderOfRemainder s m e = cmp (whole s m e : ℚ) (rational s m e) := by
  have hbounds := whole_bounds s m e
  unfold orderOfRemainder
  by_cases hfraction : hasFraction m e = true
  · have hne := (hasFraction_eq_true_iff s m e).1 hfraction
    rw [if_pos hfraction]
    cases s
    · exact (cmp_eq_lt_iff _ _ |>.2 (lt_of_le_of_ne hbounds.2.1 hne)).symm
    · exact (cmp_eq_gt_iff _ _ |>.2 (lt_of_le_of_ne hbounds.2.1 hne.symm)).symm
  · have heq : (whole s m e : ℚ) = rational s m e := by
      by_contra hne
      exact hfraction ((hasFraction_eq_true_iff s m e).2 hne)
    rw [if_neg hfraction, heq, cmp_self_eq_eq]

/-! ### A machine integer and a value -/

/-- An integer compares with a number as with its whole part, and if it is the whole
part, then by what is left of the number. -/
theorem cmp_eq_then (a : ℤ) (q : ℚ) :
    cmp (a : ℚ) q = (compare a (truncated q)).then (cmp (truncated q : ℚ) q) := by
  have hbelow : truncated q - 1 < q := by
    unfold truncated
    split
    · linarith [Int.ceil_lt_add_one q]
    · linarith [Int.floor_le q]
  have habove : q < truncated q + 1 := by
    unfold truncated
    split
    · linarith [Int.le_ceil q]
    · linarith [Int.lt_floor_add_one q]
  generalize truncated q = t at hbelow habove ⊢
  rcases lt_trichotomy a t with hlt | rfl | hgt
  · have hle : (a : ℚ) ≤ t - 1 := by exact_mod_cast Int.le_sub_one_of_lt hlt
    rw [compare_lt_iff_lt.2 hlt, (cmp_eq_lt_iff _ q).2 (by linarith)]
    rfl
  · rw [compare_eq_iff_eq.2 rfl]
    rfl
  · have hle : (t : ℚ) + 1 ≤ a := by exact_mod_cast hgt
    rw [compare_gt_iff_gt.2 hgt, (cmp_eq_gt_iff _ q).2 (by linarith)]
    rfl

theorem strictMono_place : StrictMono place :=
  WithBot.coe_strictMono.comp WithTop.coe_strictMono

theorem place_lt_top (q : ℚ) : place q < ⊤ := WithBot.coe_lt_coe.2 (WithTop.coe_lt_top q)

theorem bot_lt_place (q : ℚ) : ⊥ < place q := WithBot.bot_lt_coe _

/-- A whole part that no machine integer has lies beyond all of them, on the side that
the sign says. -/
theorem compare_whole_of_none {s : Bool} {m : Nat} {e : Int} (h : toInt64? (whole s m e) = none)
    (a : Int64) : compare a.toInt (whole s m e) = if s then .gt else .lt := by
  have hbounds := whole_bounds s m e
  have hleast := a.le_toInt
  have hgreatest := a.toInt_lt
  rw [toInt64?_eq_none_iff, Int64.toInt_minValue, Int64.toInt_maxValue] at h
  cases s
  · have hnonneg : (-1 : ℚ) < whole false m e := by linarith [hbounds.1, hbounds.2.2]
    have hnonneg' : -1 < whole false m e := by exact_mod_cast hnonneg
    exact compare_lt_iff_lt.2 (by omega)
  · have hnonpos : (whole true m e : ℚ) < 1 := by linarith [hbounds.1, hbounds.2.2]
    have hnonpos' : whole true m e < 1 := by exact_mod_cast hnonpos
    exact compare_gt_iff_gt.2 (by omega)

/-- A machine integer and a value are compared as they lie on the line. -/
theorem orderInt_eq (a : Int64) (x : Exact) :
    x.orderInt a = x.value?.map (cmp (place a.toInt)) := by
  cases x with
  | nan => rfl
  | infinite negative =>
      cases negative
      · exact congrArg some ((cmp_eq_lt_iff _ _).2 (place_lt_top _)).symm
      · exact congrArg some ((cmp_eq_gt_iff _ _).2 (bot_lt_place _)).symm
  | finite s m e =>
      have hcmp : cmp (place a.toInt) (place (rational s m e)) =
          (compare a.toInt (whole s m e)).then (orderOfRemainder s m e) := by
        rw [strictMono_place.cmp_map_eq, cmp_eq_then, ← whole_eq_truncated, orderOfRemainder_eq]
      simp only [value?, Option.map_some, hcmp, orderInt]
      cases hw : toInt64? (whole s m e) with
      | some w =>
          show some ((compare a.toInt w.toInt).then _) = _
          rw [(toInt64?_eq_some_iff _ w).1 hw]
      | none =>
          rw [compare_whole_of_none hw a]
          cases s <;> rfl

/-! ### Two values -/

/-- The value is a multiple of the least double, if it is finite. -/
def OnGrid : Exact → Prop
  | finite _ _ e => leastExponent ≤ e
  | _ => True

theorem onGrid_ofBits (bits : Nat) : (ofBits bits).OnGrid := by
  unfold ofBits
  dsimp only
  split
  · split <;> trivial
  split
  · exact le_rfl
  · exact Int.le_add_of_nonneg_right (Int.natCast_nonneg _)

theorem units_eq {s : Bool} {m : Nat} {e : Int} (he : leastExponent ≤ e) :
    (units s m e : ℚ) = rational s m e * 2 ^ (-leastExponent) := by
  obtain ⟨n, hn⟩ := Int.le.dest he
  obtain rfl := hn.symm
  rw [rational, mul_assoc, ← zpow_add₀ two_ne_zero]
  have hexponent : leastExponent + n + -leastExponent = n := by omega
  have hshift : (leastExponent + n - leastExponent).toNat = n := by omega
  rw [hexponent, zpow_natCast, units, hshift]
  cases s <;> simp [signed]

theorem compare_units {s t : Bool} {m n : Nat} {e f : Int} (he : leastExponent ≤ e)
    (hf : leastExponent ≤ f) :
    compare (units s m e) (units t n f) = cmp (rational s m e) (rational t n f) := by
  rw [← cmp_eq_compare, ← Int.cast_strictMono.cmp_map_eq (β := ℚ), units_eq he, units_eq hf]
  exact cmp_mul_pos_right (zpow_pos two_pos _) _ _

/-- Two values are compared as they lie on the line. -/
theorem order_eq {x y : Exact} (hx : x.OnGrid) (hy : y.OnGrid) :
    x.order y = x.value?.bind fun p => y.value?.map (cmp p) := by
  cases x with
  | nan => rfl
  | infinite a =>
      cases y with
      | nan => rfl
      | infinite b => cases a <;> cases b <;> rfl
      | finite t n f =>
          cases a
          · exact congrArg some ((cmp_eq_gt_iff _ _).2 (place_lt_top _)).symm
          · exact congrArg some ((cmp_eq_lt_iff _ _).2 (bot_lt_place _)).symm
  | finite s m e =>
      cases y with
      | nan => rfl
      | infinite b =>
          cases b
          · exact congrArg some ((cmp_eq_lt_iff _ _).2 (place_lt_top _)).symm
          · exact congrArg some ((cmp_eq_gt_iff _ _).2 (bot_lt_place _)).symm
      | finite t n f =>
          refine congrArg some ?_
          rw [compare_units hx hy, strictMono_place.cmp_map_eq]

/-! ### All pairs of words -/

theorem value?_eq_none_iff (x : Exact) : x.value? = none ↔ x = nan := by
  cases x <;> simp [value?]

theorem ofBits_eq_nan_iff (bits : Nat) :
    ofBits bits = nan ↔ bits / 2 ^ 52 % 2 ^ 11 = 2047 ∧ bits % 2 ^ 52 ≠ 0 := by
  simp only [ofBits, Nat.pow_eq]
  generalize bits / 2 ^ 52 % 2 ^ 11 = exponent
  generalize bits % 2 ^ 52 = fraction
  by_cases hexponent : exponent = 2047
  · by_cases hfraction : fraction = 0 <;> simp [hexponent, hfraction]
  · by_cases hzero : exponent = 0 <;> simp [hexponent, hzero]

theorem exists_toInt64?_truncated {q : ℚ} (hleast : -2 ^ 63 ≤ q) (hbound : q < 2 ^ 63) :
    ∃ w, toInt64? (truncated q) = some w := by
  refine Option.ne_none_iff_exists'.1 fun hnone => ?_
  rw [toInt64?_eq_none_iff, Int64.toInt_minValue, Int64.toInt_maxValue] at hnone
  unfold truncated at hnone
  split at hnone
  · next hneg =>
      have hle : -2 ^ 63 ≤ ⌈q⌉ := by
        have : ((-2 ^ 63 : ℤ) : ℚ) ≤ ⌈q⌉ := by
          push_cast
          exact hleast.trans (Int.le_ceil q)
        exact_mod_cast this
      have hnonpos : ⌈q⌉ ≤ 0 := Int.ceil_le.2 (by exact_mod_cast hneg.le)
      omega
  · next hnonneg =>
      have hlt : ⌊q⌋ < 2 ^ 63 := Int.floor_lt.2 (by exact_mod_cast hbound)
      have hle : 0 ≤ ⌊q⌋ := Int.floor_nonneg.2 (not_lt.1 hnonneg)
      omega

/-! ### Doubles that no machine integer reaches -/

theorem mantissa_lt_of_ofBits {bits : Nat} {s : Bool} {m : Nat} {e : Int}
    (h : ofBits bits = .finite s m e) : m < 2 ^ 53 := by
  have hfraction : bits % 2 ^ 52 < 2 ^ 52 := Nat.mod_lt _ (by decide)
  simp only [ofBits, Nat.pow_eq] at h
  split at h
  · split at h <;> cases h
  split at h
  · cases h
    omega
  · cases h
    omega

/-- Without a binary digit behind the point nothing is cut off. -/
theorem whole_eq_rational (s : Bool) (m : Nat) {e : Int} (he : 0 ≤ e) :
    (whole s m e : ℚ) = rational s m e := by
  have hnone : ¬hasFraction m e = true := by
    simp [hasFraction, Int.toNat_of_nonpos (Int.neg_nonpos_of_nonneg he), Nat.mod_one]
  rwa [hasFraction_eq_true_iff s, not_not] at hnone

/-- With one, there are fewer digits left before the point than the mantissa has. -/
theorem abs_rational_lt {s : Bool} {m : Nat} {e : Int} (hm : m < 2 ^ 53) (he : e < 0) :
    |rational s m e| < 2 ^ 53 := by
  have hpower : (2 : ℚ) ^ e ≤ 1 := zpow_le_one_of_nonpos₀ one_le_two he.le
  have hmantissa : |(signed s m : ℚ)| = m := by cases s <;> simp [signed]
  calc |rational s m e| = m * 2 ^ e := by
        rw [rational, abs_mul, hmantissa, abs_of_pos (zpow_pos two_pos e)]
    _ ≤ m * 1 := by gcongr
    _ < 2 ^ 53 := by
        rw [mul_one]
        exact_mod_cast hm

/-- A number with the mantissa of a double is cut to no machine integer exactly when it
lies out of their range. Between `-2 ^ 63 - 1` and `-2 ^ 63` this would be wrong, but such
a number takes more digits. -/
theorem toInt64?_whole_eq_none_iff {s : Bool} {m : Nat} {e : Int} (hm : m < 2 ^ 53) :
    toInt64? (whole s m e) = none ↔ rational s m e < -2 ^ 63 ∨ 2 ^ 63 ≤ rational s m e := by
  rcases le_or_gt 0 e with he | he
  · rw [toInt64?_eq_none_iff, Int64.toInt_minValue, Int64.toInt_maxValue,
      ← whole_eq_rational s m he]
    norm_cast
  · obtain ⟨hlow, hhigh⟩ := abs_lt.1 (abs_rational_lt (s := s) hm he)
    have hleast : -2 ^ 63 ≤ rational s m e := by linarith
    have hbound : rational s m e < 2 ^ 63 := by linarith
    obtain ⟨w, hw⟩ := exists_toInt64?_truncated hleast hbound
    rw [whole_eq_truncated, hw]
    simp [hleast, hbound]

section

variable {s : Bool} {m : Nat} {e : Int} (a : Int64)

theorem orderInt_of_bound_le (h : 2 ^ 63 ≤ rational s m e) :
    (finite s m e).orderInt a = some .lt := by
  have hlt : (a.toInt : ℚ) < 2 ^ 63 := by exact_mod_cast a.toInt_lt
  rw [orderInt_eq, value?, Option.map_some, strictMono_place.cmp_map_eq,
    (cmp_eq_lt_iff _ _).2 (hlt.trans_le h)]

theorem orderInt_of_lt_least (h : rational s m e < -2 ^ 63) :
    (finite s m e).orderInt a = some .gt := by
  have hle : (-2 ^ 63 : ℚ) ≤ a.toInt := by exact_mod_cast a.le_toInt
  rw [orderInt_eq, value?, Option.map_some, strictMono_place.cmp_map_eq,
    (cmp_eq_gt_iff _ _).2 (h.trans_le hle)]

/-- The whole part decides, and if it is the integer, then the remainder. -/
theorem orderInt_of_toInt64? {w : Int64} (h : toInt64? (whole s m e) = some w) :
    (finite s m e).orderInt a =
      some ((compare a.toInt w.toInt).then (cmp (w.toInt : ℚ) (rational s m e))) := by
  have hw : w.toInt = whole s m e := (toInt64?_eq_some_iff _ w).1 h
  simp only [orderInt, h, orderOfRemainder_eq, hw]

end

/-- A machine integer and the double of any word of 64 bits are compared as the integer
and the exact value lie on the line, and only with the undefined value is there no order.

A finite double is cut to a machine integer exactly when it lies from `-2 ^ 63` on and
below `2 ^ 63`. The ones beyond decide the comparison by lying there. All others are cut to
their whole part, which decides unless it is the integer, and then it is up to how it
compares with the double. -/
theorem orderInt_ofBits (a : Int64) (bits : UInt64) :
    ((ofBits bits.toNat).value? = none ↔
      bits.toNat / 2 ^ 52 % 2 ^ 11 = 2047 ∧ bits.toNat % 2 ^ 52 ≠ 0) ∧
    (ofBits bits.toNat).orderInt a =
      (ofBits bits.toNat).value?.map (cmp (place a.toInt)) ∧
    ∀ s m e, ofBits bits.toNat = .finite s m e →
      (toInt64? (whole s m e) = none ↔ rational s m e < -2 ^ 63 ∨ 2 ^ 63 ≤ rational s m e) ∧
      (2 ^ 63 ≤ rational s m e → (ofBits bits.toNat).orderInt a = some .lt) ∧
      (rational s m e < -2 ^ 63 → (ofBits bits.toNat).orderInt a = some .gt) ∧
      (-2 ^ 63 ≤ rational s m e → rational s m e < 2 ^ 63 →
        ∃ w, toInt64? (whole s m e) = some w ∧ w.toInt = truncated (rational s m e) ∧
          (ofBits bits.toNat).orderInt a =
            some ((compare a.toInt w.toInt).then (cmp (w.toInt : ℚ) (rational s m e)))) := by
  refine ⟨?_, orderInt_eq a _, fun s m e hbits => ?_⟩
  · rw [value?_eq_none_iff, ofBits_eq_nan_iff]
  rw [hbits]
  refine ⟨toInt64?_whole_eq_none_iff (mantissa_lt_of_ofBits hbits), orderInt_of_bound_le a,
    orderInt_of_lt_least a, fun hleast hbound => ?_⟩
  obtain ⟨w, hw⟩ := exists_toInt64?_truncated hleast hbound
  have hwhole : toInt64? (whole s m e) = some w := by rw [whole_eq_truncated, hw]
  exact ⟨w, hwhole, (toInt64?_eq_some_iff _ w).1 hw, orderInt_of_toInt64? a hwhole⟩

/-- The least machine integer is a double, and the two are equal. -/
theorem orderInt_ofBits_least :
    let bits : UInt64 := 0xc3e0000000000000
    let m : Nat := 2 ^ 52
    ofBits bits.toNat = .finite true m 11 ∧
    -2 ^ 63 ≤ rational true m 11 ∧ rational true m 11 < 2 ^ 63 ∧
    (∃ w, toInt64? (whole true m 11) = some w ∧ w.toInt = -2 ^ 63) ∧
    (ofBits bits.toNat).orderInt Int64.minValue = some .eq := by
  intro bits m
  have hbits : ofBits bits.toNat = .finite true m 11 := by decide
  have hrational : rational true m 11 = -2 ^ 63 := by norm_num [rational, signed, m]
  obtain ⟨-, horder, hwhole⟩ := orderInt_ofBits Int64.minValue bits
  obtain ⟨-, -, -, hcut⟩ := hwhole true m 11 hbits
  obtain ⟨w, hw, hvalue, -⟩ := hcut hrational.ge (by rw [hrational]; norm_num)
  refine ⟨hbits, hrational.ge, by rw [hrational]; norm_num, ⟨w, hw, ?_⟩, ?_⟩
  · rw [hvalue, hrational]
    norm_num [truncated]
  · rw [horder, hbits, value?, Option.map_some, hrational, Int64.toInt_minValue]
    norm_num [cmp_self_eq_eq]

end Quill.Exact
