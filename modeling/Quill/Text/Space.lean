import Quill.Text.Ranges

/-!
White space in the sense of the Unicode property `White_Space`, which is wider
than the blanks of program text, and trimming by it.
-/

namespace Quill.Text

def spaceRanges : Ranges :=
  [(0x9, 0xd), (0x20, 0x20), (0x85, 0x85), (0xa0, 0xa0), (0x1680, 0x1680), (0x2000, 0x200a),
    (0x2028, 0x2029), (0x202f, 0x202f), (0x205f, 0x205f), (0x3000, 0x3000)]

theorem ascend_spaceRanges : spaceRanges.ascend := by decide +kernel

def isSpace (c : Char) : Bool := spaceRanges.covers c.toNat

/-- Core's white space is among it. -/
theorem isSpace_of_isWhitespace (c : Char) (h : c.isWhitespace) : isSpace c := by
  simp only [Char.isWhitespace, Bool.or_eq_true, decide_eq_true_eq] at h
  rcases h with ((rfl | rfl) | rfl) | rfl <;> decide

/-- A text without the white space at its two ends. -/
def trim (s : String) : String :=
  let front := s.toList.dropWhile isSpace
  String.ofList (front.reverse.dropWhile isSpace).reverse

end Quill.Text
