/-!
Sets of characters as lists of code point ranges. The ranges of a list are
disjoint and ascend, so a search stops at the first range that lies above.
-/

namespace Quill.Text

/-- Ranges of code points, both ends included. -/
abbrev Ranges := List (Nat × Nat)

/-- The code point lies in one of the ranges. -/
def Ranges.covers : Ranges → Nat → Bool
  | [], _ => false
  | (first, last) :: rest, n =>
      if n < first then false else if n ≤ last then true else covers rest n

/-- Each range lies wholly above those before it. -/
def Ranges.ascend : Ranges → Bool
  | [] => true
  | [(first, last)] => first ≤ last
  | (first, last) :: (first', last') :: rest =>
      first ≤ last && last < first' && ascend ((first', last') :: rest)

end Quill.Text
