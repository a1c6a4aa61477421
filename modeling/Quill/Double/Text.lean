import Quill.Double.Exact
import Quill.Double.Shortest

/-!
How a double is written: the digits of its shortest decimal, laid out with a
point among them when the number is of middling size and with an exponent
otherwise.
-/

namespace Quill

/-- Which powers of ten are written with the point in place: those from `least`
on and below `bound`. -/
structure Layout where
  least : Int
  bound : Int

/-- Reals are written positionally from a ten-thousandth up to ten to the
sixteenth. -/
def Layout.real : Layout := ⟨-4, 16⟩

namespace Decimal

/-- The digits without trailing zeros. -/
def significant (d : Decimal) : List Char :=
  ((Nat.toDigits 10 d.digits).reverse.dropWhile (· == '0')).reverse

/-- The power of ten of the leading digit. -/
def leading (d : Decimal) : Int :=
  d.exponent + ((Nat.toDigits 10 d.digits).length - 1 : Nat)

/-- A number with its point in place, with at least one digit on either side. -/
def positional (digits : List Char) (leading : Int) : List Char :=
  if 0 ≤ leading then
    let width := leading.toNat + 1
    let before := digits.take width ++ List.replicate (width - digits.length) '0'
    let after := digits.drop width
    before ++ '.' :: (if after.isEmpty then ['0'] else after)
  else
    '0' :: '.' :: (List.replicate (-leading - 1).toNat '0' ++ digits)

/-- A number with one digit before the point and an exponent; the point is left
out where no digit follows. -/
def scientific (digits : List Char) (leading : Int) : List Char :=
  let tail := digits.drop 1
  digits.take 1 ++ (if tail.isEmpty then [] else '.' :: tail) ++ 'e' :: (toString leading).toList

def layOut (l : Layout) (d : Decimal) : List Char :=
  if l.least ≤ d.leading ∧ d.leading < l.bound then
    positional d.significant d.leading
  else
    scientific d.significant d.leading

end Decimal

/-- The text of a value. Zero keeps its sign; infinities and the undefined value
are words. -/
def Exact.text : Exact → String
  | nan => "NaN"
  | infinite negative => if negative then "-inf" else "inf"
  | finite negative mantissa exponent =>
      let magnitude :=
        if mantissa = 0 then ['0', '.', '0']
        else ((Interval.ofDouble mantissa exponent).shortest).layOut Layout.real
      String.ofList (if negative then '-' :: magnitude else magnitude)

end Quill
