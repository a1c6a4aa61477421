/-!
The shortest decimal that names a double. The reals that round to a double form
an interval around it, and any decimal inside that interval reads back as the
same double. The search lays decimal grids over the interval, one digit finer
each time, and stops at the first grid with a point inside. On each grid only the
two neighbours of the double need a look: if any grid point is inside, so is one
of them. All of it is done in natural numbers, so no step rounds.
-/

namespace Quill

/-- The decimal `digits * 10 ^ exponent`. -/
structure Decimal where
  digits : Nat
  exponent : Int
  deriving DecidableEq, Repr

/-- A double `value * 2 ^ exponent` and the interval of reals that round to it,
in the same unit. The ends belong to the interval when `closed`. -/
structure Interval where
  low : Nat
  value : Nat
  high : Nat
  exponent : Int
  closed : Bool
  deriving Repr

namespace Interval

/-- The interval of the double `mantissa * 2 ^ exponent`. Its ends lie halfway to
the neighbouring doubles, so the lower neighbour of a power of two, being half as
far away, brings the lower end nearer. A halfway point rounds to the even
mantissa, which is what decides whether the ends belong. -/
def ofDouble (mantissa : Nat) (exponent : Int) : Interval :=
  let narrow := mantissa = Nat.pow 2 52 ∧ -1074 < exponent
  { low := 4 * mantissa - (if narrow then 1 else 2)
    value := 4 * mantissa
    high := 4 * mantissa + 2
    exponent := exponent - 2
    closed := mantissa % 2 == 0 }

/-- Both sides of a comparison of `n * 10 ^ p` with `x * 2 ^ exponent`, cleared
of fractions. -/
def sides (i : Interval) (n : Nat) (p : Int) (x : Nat) : Nat × Nat :=
  (n * Nat.pow 10 p.toNat * Nat.pow 2 (-i.exponent).toNat,
    x * Nat.pow 2 i.exponent.toNat * Nat.pow 10 (-p).toNat)

/-- The decimal lies in the interval. -/
def holds (i : Interval) (d : Decimal) : Bool :=
  let (n, low) := i.sides d.digits d.exponent i.low
  let (_, high) := i.sides d.digits d.exponent i.high
  if i.closed then low ≤ n && n ≤ high else low < n && n < high

/-- The greatest `n` with `n * 10 ^ p` not above the double. -/
def below (i : Interval) (p : Int) : Nat :=
  let (grid, value) := i.sides 1 p i.value
  value / grid

/-- The number of digits before the point; for a double below one, minus the
number of zeros after the point. Ten to the 330th raises every positive double
above one, where counting digits is exact. -/
def magnitude (i : Interval) : Int :=
  (Nat.repr (i.below (-330))).length - 330

/-- Of the two grid points next to the double the one inside the interval, and
of two inside the nearer. A tie goes up. -/
def pick? (i : Interval) (p : Int) : Option Decimal :=
  let n := i.below p
  let lower : Decimal := ⟨n, p⟩
  let upper : Decimal := ⟨n + 1, p⟩
  let (middle, value) := i.sides (2 * n + 1) p (2 * i.value)
  match i.holds lower, i.holds upper with
  | true, true => some (if value < middle then lower else upper)
  | true, false => some lower
  | false, true => some upper
  | false, false => none

/-- The decimal of the coarsest grid that names the double. Seventeen digits
always suffice, so the last grid is a formality. -/
def shortest (i : Interval) : Decimal :=
  let grids := (List.range 17).map fun n => i.magnitude - (n + 1 : Nat)
  (grids.findSome? i.pick?).getD ⟨i.below (i.magnitude - 17), i.magnitude - 17⟩

end Interval

end Quill
