/-!
The exact value of a double. The 64 bits of a double denote a dyadic rational,
an infinity, or no number at all; reading them as such gives comparisons that
never round. A machine integer is compared with a double through its whole part
first and the sign of what is left over second, so that integers beyond `2 ^ 53`
are told apart from the doubles next to them.
-/

namespace Quill

/-- The machine integer that has the value of an exact integer, if there is
one. Going there and back is what tells. -/
def toInt64? (n : Int) : Option Int64 :=
  let r := Int64.ofInt n
  if r.toInt = n then some r else none

theorem toInt64?_eq_some_iff (n : Int) (r : Int64) : toInt64? n = some r ↔ r.toInt = n := by
  simp only [toInt64?, Option.ite_none_right_eq_some, Option.some.injEq]
  constructor
  · rintro ⟨h, rfl⟩
    exact h
  · rintro rfl
    simp

theorem toInt64?_eq_none_iff (n : Int) :
    toInt64? n = none ↔ n < Int64.minValue.toInt ∨ Int64.maxValue.toInt < n := by
  rw [Option.eq_none_iff_forall_ne_some, Int64.toInt_minValue, Int64.toInt_maxValue]
  constructor
  · intro h
    have hne := h (Int64.ofInt n)
    rw [ne_eq, toInt64?_eq_some_iff] at hne
    refine Decidable.byContradiction fun hrange => hne ?_
    exact Int64.toInt_ofInt_of_le (by omega) (by omega)
  · intro h r hr
    rw [toInt64?_eq_some_iff] at hr
    have := r.le_toInt
    have := r.toInt_lt
    omega

/-- What a double stands for. `finite` is the number
`± mantissa * 2 ^ exponent`; both zeros have mantissa `0`. -/
inductive Exact
  | nan
  | infinite (negative : Bool)
  | finite (negative : Bool) (mantissa : Nat) (exponent : Int)
  deriving DecidableEq, Repr

namespace Exact

/-- Exponent of the least positive double. Every finite double is a whole
multiple of two to this power. -/
def leastExponent : Int := -1074

/-- The value that 64 bits denote: a sign, eleven bits of exponent and 52 of
fraction, with a leading one unless the exponent is the least. -/
def ofBits (bits : Nat) : Exact :=
  let negative := bits / Nat.pow 2 63 % 2 == 1
  let exponent : Nat := bits / Nat.pow 2 52 % Nat.pow 2 11
  let fraction := bits % Nat.pow 2 52
  if exponent = 2047 then
    if fraction = 0 then .infinite negative else .nan
  else if exponent = 0 then
    .finite negative fraction leastExponent
  else
    .finite negative (Nat.pow 2 52 + fraction) (leastExponent + (exponent - 1 : Nat))

def ofFloat (x : Float) : Exact := ofBits x.toBits.toNat

def isZero : Exact → Bool
  | finite _ 0 _ => true
  | _ => false

def signed (negative : Bool) (n : Nat) : Int :=
  if negative then -(n : Int) else n

/-- A finite value counted in multiples of the least positive double. -/
def units (negative : Bool) (mantissa : Nat) (exponent : Int) : Int :=
  signed negative (mantissa * Nat.pow 2 (exponent - leastExponent).toNat)

/-- The order of two values; an infinity lies beyond every finite value, the
two zeros are equal, and no value is ordered with `nan`. -/
def order : Exact → Exact → Option Ordering
  | nan, _ => none
  | _, nan => none
  | infinite a, infinite b =>
      some (if a = b then .eq else if a then .lt else .gt)
  | infinite a, finite _ _ _ => some (if a then .lt else .gt)
  | finite _ _ _, infinite b => some (if b then .gt else .lt)
  | finite s m e, finite t n f => some (compare (units s m e) (units t n f))

/-- The part before the point, cut toward zero. -/
def whole (negative : Bool) (mantissa : Nat) (exponent : Int) : Int :=
  signed negative (mantissa * Nat.pow 2 exponent.toNat / Nat.pow 2 (-exponent).toNat)

/-- The part after the point is not zero. -/
def hasFraction (mantissa : Nat) (exponent : Int) : Bool :=
  mantissa % Nat.pow 2 (-exponent).toNat ≠ 0

/-- How a number whose whole part is given compares with that whole part, seen
from the whole part: a positive remainder puts the whole part below. -/
def orderOfRemainder (negative : Bool) (mantissa : Nat) (exponent : Int) : Ordering :=
  if hasFraction mantissa exponent then (if negative then .gt else .lt) else .eq

/-- The order of a machine integer and a value. A whole part that is no machine
integer lies beyond all of them and decides by its sign; equal whole parts leave
the decision to the remainder. -/
def orderInt (a : Int64) : Exact → Option Ordering
  | nan => none
  | infinite negative => some (if negative then .gt else .lt)
  | finite s m e =>
      match toInt64? (whole s m e) with
      | some w => some ((compare a.toInt w.toInt).then (orderOfRemainder s m e))
      | none => some (if s then .gt else .lt)

end Exact

end Quill
