import Quill.Text.Break

/-!
Text divided into grapheme clusters, the characters that a reader sees: a letter
with its accents, a Hangul syllable, a conjunct of Indic consonants, an emoji
with its modifiers, a flag. Whether a character goes on with the cluster before
it depends on what the cluster ends in, and that is all that is kept of it.
-/

namespace Quill.Text

/-- How far an emoji sequence has come: a pictograph with what extends it, and
then a joiner. -/
inductive Sequence
  | none | pictograph | joined
  deriving DecidableEq, Repr

/-- How far a conjunct has come: a consonant, and then a linker. -/
inductive Conjunct
  | none | consonant | linked
  deriving DecidableEq, Repr

/-- The end of a cluster. -/
structure Ending where
  last : Break
  sequence : Sequence
  conjunct : Conjunct
  /-- The cluster ends in an odd number of flag letters. -/
  oddRegional : Bool
  deriving DecidableEq, Repr

def Sequence.next : Sequence → Break → Sequence
  | _, .pictograph => .pictograph
  | .pictograph, .extend | .pictograph, .linker | .pictograph, .nonJoiner => .pictograph
  | .pictograph, .joiner => .joined
  | _, _ => .none

def Conjunct.next : Conjunct → Break → Conjunct
  | _, .consonant => .consonant
  | .none, _ => .none
  | _, .linker => .linked
  | c, .extend | c, .joiner => c
  | _, _ => .none

namespace Ending

def next (e : Ending) (b : Break) : Ending where
  last := b
  sequence := e.sequence.next b
  conjunct := e.conjunct.next b
  oddRegional := b = .regional && !e.oddRegional

/-- The end of a cluster of one character. -/
def start (b : Break) : Ending :=
  next ⟨.other, .none, .none, false⟩ b

/-- A character of this class goes on with the cluster. -/
def continues (e : Ending) (b : Break) : Bool :=
  match e.last, b with
  | .carriageReturn, .lineFeed => true
  | .carriageReturn, _ | .lineFeed, _ | .control, _ => false
  | _, .carriageReturn | _, .lineFeed | _, .control => false
  | _, .extend | _, .linker | _, .nonJoiner | _, .joiner | _, .spacing => true
  | .prepended, _ => true
  | .leading, .leading | .leading, .vowel => true
  | .leading, .openSyllable | .leading, .closedSyllable => true
  | .openSyllable, .vowel | .openSyllable, .trailing => true
  | .vowel, .vowel | .vowel, .trailing => true
  | .closedSyllable, .trailing | .trailing, .trailing => true
  | _, .consonant => e.conjunct = .linked
  | _, .pictograph => e.sequence = .joined
  | .regional, .regional => e.oddRegional
  | _, _ => false

end Ending

/-- The clusters of a text behind one that has been begun, which is given in
reverse. -/
def clustersFrom (e : Ending) (begun : List Char) : List Char → List (List Char)
  | [] => [begun.reverse]
  | c :: cs =>
      let b := Break.ofChar c
      if e.continues b then clustersFrom (e.next b) (c :: begun) cs
      else begun.reverse :: clustersFrom (.start b) [c] cs

def clusters : List Char → List (List Char)
  | [] => []
  | c :: cs => clustersFrom (.start (.ofChar c)) [c] cs

theorem flatten_clustersFrom (e : Ending) (begun cs : List Char) :
    (clustersFrom e begun cs).flatten = begun.reverse ++ cs := by
  induction cs generalizing e begun with
  | nil => simp [clustersFrom]
  | cons c cs ih =>
      simp only [clustersFrom]
      split
      · simp [ih]
      · simp [ih]

/-- The clusters of a text put together are the text. -/
theorem flatten_clusters (cs : List Char) : (clusters cs).flatten = cs := by
  cases cs with
  | nil => rfl
  | cons c cs => simp [clusters, flatten_clustersFrom]

end Quill.Text
