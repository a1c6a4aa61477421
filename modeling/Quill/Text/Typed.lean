import Quill.Text.Cluster

/-!
Typed lines, in which a backspace takes back the cluster before it. What has
been typed is a stack of sizes in bytes, one for each cluster, and taking back
removes that many bytes. A size is kept in a single byte: of a cluster of 256
bytes or more only a part is removed, and where that part would end inside a
character the line cannot be read at all.
-/

namespace Quill.Text

/-- What has been typed, in reverse, and the sizes of its clusters. -/
structure Typed where
  text : List Char
  sizes : List UInt8

/-- Remove bytes from the head of a text, if they are the bytes of whole
characters. -/
def dropBytes : Nat → List Char → Option (List Char)
  | 0, cs => some cs
  | _ + 1, [] => none
  | n + 1, c :: cs =>
      if c.utf8Size ≤ n + 1 then dropBytes (n + 1 - c.utf8Size) cs else none

def bytesOf (cs : List Char) : Nat := cs.foldr (fun c n => c.utf8Size + n) 0

namespace Typed

def empty : Typed := ⟨[], []⟩

/-- A backspace with nothing before it does nothing. -/
def takeBack (t : Typed) : Option Typed :=
  match t.sizes with
  | [] => some t
  | size :: sizes => (dropBytes size.toNat t.text).map fun text => ⟨text, sizes⟩

def add (t : Typed) (cluster : List Char) : Option Typed :=
  if cluster = ['\x08'] then t.takeBack
  else some ⟨cluster.reverse ++ t.text, (bytesOf cluster).toUInt8 :: t.sizes⟩

/-- What remains of a line once all backspaces have taken effect. -/
def line? (s : String) : Option String :=
  ((clusters s.toList).foldlM add empty).map fun t => String.ofList t.text.reverse

end Typed

end Quill.Text
