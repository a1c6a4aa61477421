/-!
What a program sees of the world outside: files that it can load, and an output
that takes lines. Any type can play this part whose values can be asked for the two;
what they answer, and what becomes of them, is theirs to say.

One such type is `Host`, with all of it in memory. Its output may stop taking lines at
some point, which is how a pipe whose reader has gone away behaves.
-/

namespace Quill

/-- What is asked of a host: to print a line, or to say why not, and to give the text of
a file, if there is one. Both may change the host, and what it answers next, whether
they succeed or not. -/
class HostLike (H : Type) where
  print : H → String → Except String Unit × H
  load : H → String → Option String × H

/-- The output takes this many lines and refuses further ones for a reason. -/
structure Cutoff where
  lines : Nat
  reason : String
  deriving DecidableEq, Repr

/-- A host in memory. Its files stay as they are. -/
structure Host where
  files : String → Option String
  output : Array String
  cutoff : Option Cutoff

namespace Host

/-- A host that holds these files, has printed nothing and takes all lines. -/
def ofFiles (files : String → Option String) : Host := ⟨files, #[], none⟩

/-- Add a file, in place of an older one at the same path. -/
def addFile (h : Host) (path source : String) : Host :=
  { h with files := fun p => if p = path then some source else h.files p }

def clearOutput (h : Host) : Host := { h with output := #[] }

/-- Take a line, or say why not. -/
def print (h : Host) (line : String) : Except String Host :=
  match h.cutoff with
  | some c =>
      if c.lines ≤ h.output.size then .error c.reason
      else .ok { h with output := h.output.push line }
  | none => .ok { h with output := h.output.push line }

instance : HostLike Host where
  print h line :=
    match h.print line with
    | .ok h' => (.ok (), h')
    | .error reason => (.error reason, h)
  load h path := (h.files path, h)

end Host

end Quill
