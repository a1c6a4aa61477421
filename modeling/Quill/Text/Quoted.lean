import Quill.Text.Extending
import Quill.Text.Printable

/-!
Strings between double quotes with everything in them visible. Which characters
are shown by their code point is a parameter, as nothing about the format hangs
on it.
-/

namespace Quill.Text

/-- A code point in hexadecimal between braces. -/
def codePoint (c : Char) : List Char :=
  ['\\', 'u', '\x7b'] ++ Nat.toDigits 16 c.toNat ++ ['\x7d']

/-- One character inside quotes. -/
def escape (hidden : Char → Bool) (c : Char) : List Char :=
  if c = '\x00' then ['\\', '0']
  else if c = '\t' then ['\\', 't']
  else if c = '\r' then ['\\', 'r']
  else if c = '\n' then ['\\', 'n']
  else if c = '"' then ['\\', '"']
  else if c = '\\' then ['\\', '\\']
  else if hidden c then codePoint c
  else [c]

def quoteWith (hidden : Char → Bool) (s : String) : String :=
  String.ofList ('"' :: s.toList.flatMap (escape hidden) ++ ['"'])

/-- The halfwidth voicing signs of katakana extend the letter before them but
are letters themselves, with a width of their own. -/
def isVoicingLetter (c : Char) : Bool := c = '\uff9e' || c = '\uff9f'

/-- Characters that leave no mark, or would join the one before them, are
shown by their code point. -/
def isHidden (c : Char) : Bool :=
  (isExtending c && !isVoicingLetter c) || !isPrintable c

end Quill.Text
