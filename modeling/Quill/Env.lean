import Quill.Value

/-!
Variables. A frame holds the names declared in one block in the order in which
they were first declared there, and an environment is a stack of frames with the
innermost at the head. Looking a name up and writing to it both search outward
and act on the first frame that has it; only declaring creates a binding, and
only in the innermost frame.
-/

namespace Quill

/-- The bindings of one block, oldest first. -/
abbrev Frame := List (String × Value)

namespace Frame

def get? (f : Frame) (name : String) : Option Value :=
  match f with
  | [] => none
  | (n, v) :: rest => if n = name then some v else get? rest name

/-- Bind a name. A name that is already there keeps its place. -/
def put (f : Frame) (name : String) (value : Value) : Frame :=
  match f with
  | [] => [(name, value)]
  | (n, v) :: rest => if n = name then (n, value) :: rest else (n, v) :: put rest name value

def names (f : Frame) : List String := f.map Prod.fst

@[simp] theorem get?_put (f : Frame) (x : String) (v : Value) (y : String) :
    (f.put x v).get? y = if y = x then some v else f.get? y := by
  induction f with
  | nil => simp only [put, get?, eq_comm]
  | cons b rest ih =>
      obtain ⟨n, w⟩ := b
      by_cases hn : n = x
      · subst hn
        simp only [put, if_true, get?]
        by_cases hy : n = y
        · simp [hy]
        · simp [hy, Ne.symm hy]
      · simp only [put, if_neg hn, get?, ih]
        by_cases hy : n = y
        · simp [← hy, hn]
        · simp [hy]

end Frame

/-- A stack of frames, innermost first. -/
structure Env where
  frames : List Frame
  deriving DecidableEq

namespace Env

/-- The environment in which a program starts: one frame, and nothing in it. -/
def initial : Env := ⟨[[]]⟩

def depth (e : Env) : Nat := e.frames.length

def push (e : Env) : Env := ⟨[] :: e.frames⟩

/-- Drop the innermost frame. Without a frame there is nothing to drop. -/
def pop (e : Env) : Env := ⟨e.frames.tail⟩

/-- Bind a name to nothing in the innermost frame, making a frame if there is
none. -/
def declare (e : Env) (name : String) : Env :=
  match e.frames with
  | [] => ⟨[Frame.put [] name .nil]⟩
  | f :: fs => ⟨f.put name .nil :: fs⟩

/-- The value of the innermost binding of a name. -/
def read? (e : Env) (name : String) : Option Value :=
  e.frames.findSome? fun f => f.get? name

/-- Change the value at the innermost of these frames that has the name. -/
def writeFrames (name : String) (value : Value) : List Frame → Option (List Frame)
  | [] => none
  | f :: fs =>
      match f.get? name with
      | some _ => some (f.put name value :: fs)
      | none => (writeFrames name value fs).map (f :: ·)

/-- Give the innermost binding of a name another value. -/
def write? (e : Env) (name : String) (value : Value) : Option Env :=
  (writeFrames name value e.frames).map Env.mk

/-- The bindings whose name has not come up before. -/
def distinct : List (String × Value) → List (String × Value)
  | [] => []
  | b :: rest => b :: (distinct rest).filter fun c => c.1 ≠ b.1

/-- The bindings that can be seen, from the innermost frame outward. -/
def bindings (e : Env) : List (String × Value) :=
  distinct e.frames.flatten

@[simp] theorem depth_push (e : Env) : e.push.depth = e.depth + 1 := rfl

@[simp] theorem pop_push (e : Env) : e.push.pop = e := rfl

/-! ### Reading after declaring and writing -/

@[simp] theorem read?_cons (f : Frame) (fs : List Frame) (x : String) :
    read? ⟨f :: fs⟩ x = (f.get? x).or (read? ⟨fs⟩ x) := by
  simp only [read?, List.findSome?_cons]
  cases f.get? x <;> rfl

theorem write?_cons_of_some {f : Frame} {x : String} {u : Value} (h : f.get? x = some u)
    (fs : List Frame) (v : Value) : write? ⟨f :: fs⟩ x v = some ⟨f.put x v :: fs⟩ := by
  simp only [write?, writeFrames, h, Option.map_some]

theorem write?_cons_of_none {f : Frame} {x : String} (h : f.get? x = none) (fs : List Frame)
    (v : Value) : write? ⟨f :: fs⟩ x v = (write? ⟨fs⟩ x v).map fun e => ⟨f :: e.frames⟩ := by
  simp only [write?, writeFrames, h, Option.map_map]
  rfl

theorem read?_declare (e : Env) (x y : String) :
    (e.declare x).read? y = if y = x then some .nil else e.read? y := by
  obtain ⟨fs⟩ := e
  cases fs with
  | nil =>
      simp only [declare, read?_cons, Frame.get?_put]
      split <;> rfl
  | cons f fs =>
      simp only [declare, read?_cons, Frame.get?_put]
      split <;> rfl

/-- A name can be written to if and only if it can be read. -/
theorem write?_eq_none_iff (e : Env) (x : String) (v : Value) :
    e.write? x v = none ↔ e.read? x = none := by
  obtain ⟨fs⟩ := e
  induction fs with
  | nil => simp [write?, writeFrames, read?]
  | cons f fs ih =>
      cases hget : f.get? x with
      | some u => simp [write?_cons_of_some hget, hget]
      | none => simpa [write?_cons_of_none hget, hget] using ih

theorem read?_of_write? {e e' : Env} {x : String} {v : Value} (h : e.write? x v = some e')
    (y : String) : e'.read? y = if y = x then some v else e.read? y := by
  obtain ⟨fs⟩ := e
  induction fs generalizing e' with
  | nil => cases h
  | cons f fs ih =>
      cases hget : f.get? x with
      | some u =>
          rw [write?_cons_of_some hget] at h
          cases h
          simp only [read?_cons, Frame.get?_put]
          split <;> rfl
      | none =>
          rw [write?_cons_of_none hget] at h
          obtain ⟨d, hd, rfl⟩ := Option.map_eq_some_iff.1 h
          rw [read?_cons, read?_cons, ih hd]
          split
          · next hy => rw [hy, hget, Option.none_or]
          · rfl

end Env

end Quill
