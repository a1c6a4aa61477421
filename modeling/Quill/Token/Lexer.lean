import Quill.Fault

/-!
Cutting text into tokens. Between lexemes stand blanks, which are dropped; at
any other character the longest lexeme is taken. A token's line is one more than
the number of line ends before it, and since a string may itself hold line ends,
lines are counted in whatever is passed over, blank or not.
-/

namespace Quill

/-- The blanks of program text are space, tab, carriage return and line feed;
no other white space is. -/
def isBlank (c : Char) : Bool :=
  c = ' ' || c = '\t' || c = '\r' || c = '\n'

def lineEnds (cs : List Char) : Nat := cs.count '\n'

/-- A piece of text and the token it makes, its line apart. -/
structure Lexeme where
  text : List Char
  kind : Kind
  value : Option Payload
  deriving DecidableEq, Repr

namespace Lexeme

/-- What reading one lexeme gives: the lexeme and the text behind it, or the
piece of text that is none and why. -/
abbrev Reading := Except (List Char × LexReason) (Lexeme × List Char)

/-- A word is a letter and all letters and digits behind it. It is a reserved
word if it spells one and a name otherwise. -/
def word (cs : List Char) : Reading :=
  let text := cs.takeWhile Char.isAlphanum
  let rest := cs.dropWhile Char.isAlphanum
  let name := String.ofList text
  match Kind.keyword? name with
  | some k => .ok (⟨text, k, none⟩, rest)
  | none => .ok (⟨text, .ident, some (.str name)⟩, rest)

/-- A number is a run of digits that fits a machine integer. -/
def number (cs : List Char) : Reading :=
  let text := cs.takeWhile Char.isDigit
  let rest := cs.dropWhile Char.isDigit
  match toInt64? (Nat.ofDigitChars 10 text 0) with
  | some n => .ok (⟨text, .int, some (.int n)⟩, rest)
  | none => .error (text, .outOfRange)

/-- A string reaches from its opening quote, which `cs` lacks, to the next
quote. Nothing inside it is special. -/
def string (cs : List Char) : Reading :=
  let body := cs.takeWhile (· ≠ '"')
  match cs.dropWhile (· ≠ '"') with
  | [] => .error ('"' :: body, .unterminated)
  | close :: rest =>
      .ok (⟨'"' :: body ++ [close], .string, some (.str (String.ofList body))⟩, rest)

/-- The mark at the head of a text; of two marks that both fit the longer. -/
def mark? : List Char → Option (Kind × List Char)
  | '=' :: '=' :: rest => some (.equal, rest)
  | '!' :: '=' :: rest => some (.notEqual, rest)
  | '<' :: '=' :: rest => some (.lessEqual, rest)
  | '>' :: '=' :: rest => some (.greaterEqual, rest)
  | '=' :: rest => some (.assign, rest)
  | '!' :: rest => some (.bang, rest)
  | '<' :: rest => some (.less, rest)
  | '>' :: rest => some (.greater, rest)
  | '+' :: rest => some (.plus, rest)
  | '-' :: rest => some (.minus, rest)
  | '*' :: rest => some (.star, rest)
  | '/' :: rest => some (.slash, rest)
  | '(' :: rest => some (.lparen, rest)
  | ')' :: rest => some (.rparen, rest)
  | '\x7b' :: rest => some (.lbrace, rest)
  | '\x7d' :: rest => some (.rbrace, rest)
  | ';' :: rest => some (.semi, rest)
  | _ => none

/-- The longest lexeme at the head of `c :: cs`. Its first character settles
which class it belongs to. -/
def read (c : Char) (cs : List Char) : Reading :=
  if c.isAlpha then word (c :: cs)
  else if c.isDigit then number (c :: cs)
  else if c = '"' then string cs
  else
    match mark? (c :: cs) with
    | some (k, rest) => .ok (⟨k.text.toList, k, none⟩, rest)
    | none => .error ([c], .unrecognized)

theorem text_append_of_word {cs rest : List Char} {l : Lexeme}
    (h : word cs = .ok (l, rest)) : l.text ++ rest = cs := by
  unfold word at h
  dsimp only at h
  split at h <;> cases h <;> simp

theorem text_append_of_number {cs rest : List Char} {l : Lexeme}
    (h : number cs = .ok (l, rest)) : l.text ++ rest = cs := by
  unfold number at h
  dsimp only at h
  split at h <;> cases h
  simp

theorem text_append_of_string {cs rest : List Char} {l : Lexeme}
    (h : string cs = .ok (l, rest)) : l.text ++ rest = '"' :: cs := by
  unfold string at h
  dsimp only at h
  split at h
  · cases h
  · next close tail hdrop =>
      cases h
      have hcs := List.takeWhile_append_dropWhile (p := fun c => decide (c ≠ '"')) (l := cs)
      rw [hdrop] at hcs
      simpa using hcs

theorem text_append_of_mark {cs rest : List Char} {k : Kind}
    (h : mark? cs = some (k, rest)) : k.text.toList ++ rest = cs := by
  unfold mark? at h
  split at h <;> cases h <;> simp [Kind.text]

/-- Nothing is lost in reading a lexeme. -/
theorem text_append_of_read {c : Char} {cs rest : List Char} {l : Lexeme}
    (h : read c cs = .ok (l, rest)) : l.text ++ rest = c :: cs := by
  unfold read at h
  split at h
  · exact text_append_of_word h
  split at h
  · exact text_append_of_number h
  split at h
  · next hc => exact hc ▸ text_append_of_string h
  split at h
  · next hmark => cases h; exact text_append_of_mark hmark
  · cases h

theorem text_ne_nil_of_read {c : Char} {cs rest : List Char} {l : Lexeme}
    (h : read c cs = .ok (l, rest)) : l.text ≠ [] := by
  unfold read at h
  split at h
  · next hc =>
      unfold word at h
      dsimp only at h
      split at h <;> cases h <;> simp [Char.isAlphanum, hc]
  split at h
  · next hc =>
      unfold number at h
      dsimp only at h
      split at h <;> cases h
      simp [hc]
  split at h
  · unfold string at h
    dsimp only at h
    split at h <;> cases h
    simp
  split at h
  · next k _ hmark =>
      cases h
      unfold mark? at hmark
      split at hmark <;> cases hmark <;> simp [Kind.text]
  · cases h

theorem length_lt_of_read {c : Char} {cs rest : List Char} {l : Lexeme}
    (h : read c cs = .ok (l, rest)) : rest.length < (c :: cs).length := by
  rw [← text_append_of_read h, List.length_append]
  have := List.length_pos_iff.2 (text_ne_nil_of_read h)
  omega

end Lexeme

/-- The tokens of a text whose first character is on the given line, closed by
one that marks the end. -/
def lexFrom (line : Nat) : List Char → Except Fault (List Token)
  | [] => .ok [⟨.eof, line, none⟩]
  | c :: cs =>
      if isBlank c then lexFrom (line + lineEnds [c]) cs
      else
        match _hread : Lexeme.read c cs with
        | .error (text, reason) => .error (.lex (String.ofList text) reason line)
        | .ok (l, rest) =>
            match lexFrom (line + lineEnds l.text) rest with
            | .ok ts => .ok (⟨l.kind, line, l.value⟩ :: ts)
            | .error f => .error f
termination_by cs => cs.length
decreasing_by
  · simp
  · exact Lexeme.length_lt_of_read _hread

/-- The tokens of a program text. -/
def lex (source : String) : Except Fault (List Token) :=
  lexFrom 1 source.toList

end Quill
