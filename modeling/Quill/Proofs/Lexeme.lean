import Quill.Token.Lexer

/-!
The lexemes of the language, described apart from the way they are read. There
are four classes: words, numerals, quoted strings and marks. The first character
of a lexeme settles its class, and within a class reading takes as much as it
can, so what `read` returns is the longest lexeme at the head of the text
(`isLongest_of_read`) together with the kind and the payload that the lexeme
stands for (`denotes_of_read`). Where `read` fails it fails for one of three
causes, each stated here on the text alone (`failure_of_read`).
-/

namespace Quill

namespace Kind

theorem keyword?_eq_some_iff (word : String) (k : Kind) :
    keyword? word = some k ↔ k.isKeyword ∧ k.text = word := by
  constructor
  · intro h
    have hfound := List.find?_some h
    simpa using hfound
  · rintro ⟨hk, rfl⟩
    cases k <;> first | rfl | exact absurd hk (by decide)

theorem keyword?_eq_none_iff (word : String) :
    keyword? word = none ↔ ∀ k : Kind, k.isKeyword → k.text ≠ word := by
  rw [Option.eq_none_iff_forall_ne_some]
  constructor
  · intro h k hk hword
    exact h k ((keyword?_eq_some_iff word k).2 ⟨hk, hword⟩)
  · intro h k hk
    obtain ⟨hkey, hword⟩ := (keyword?_eq_some_iff word k).1 hk
    exact h k hkey hword

end Kind

namespace Lexeme

/-! ### The four classes -/

/-- A letter and then letters and digits. -/
def IsWord : List Char → Prop
  | [] => False
  | c :: cs => c.isAlpha ∧ ∀ d ∈ cs, d.isAlphanum

instance : DecidablePred IsWord
  | [] => inferInstanceAs (Decidable False)
  | c :: cs =>
      have := List.decidableBAll (fun d : Char => d.isAlphanum = true) cs
      inferInstanceAs (Decidable (c.isAlpha ∧ ∀ d ∈ cs, d.isAlphanum))

/-- A run of digits. -/
def IsNumeral (l : List Char) : Prop := l ≠ [] ∧ ∀ c ∈ l, c.isDigit

/-- Two quotes with no quote between them. -/
def IsQuoted (l : List Char) : Prop := ∃ body, '"' ∉ body ∧ l = '"' :: body ++ ['"']

/-- The operators, brackets and the semicolon, each with its kind. -/
def marks : List (List Char × Kind) :=
  [(['+'], .plus), (['-'], .minus), (['*'], .star), (['/'], .slash), (['!'], .bang),
    (['='], .assign), (['<'], .less), (['>'], .greater),
    (['=', '='], .equal), (['!', '='], .notEqual), (['<', '='], .lessEqual),
    (['>', '='], .greaterEqual),
    (['('], .lparen), ([')'], .rparen), (['\x7b'], .lbrace), (['\x7d'], .rbrace), ([';'], .semi)]

def IsMark (l : List Char) : Prop := l ∈ marks.map Prod.fst

instance : DecidablePred IsMark := fun l => inferInstanceAs (Decidable (l ∈ marks.map Prod.fst))

def IsLexeme (l : List Char) : Prop := IsWord l ∨ IsNumeral l ∨ IsQuoted l ∨ IsMark l

/-- The longest prefix of a text that is a lexeme. -/
def IsLongest (l cs : List Char) : Prop :=
  IsLexeme l ∧ l <+: cs ∧ ∀ l', IsLexeme l' → l' <+: cs → l'.length ≤ l.length

/-- The number that a run of digits stands for. -/
def numeralValue (l : List Char) : Nat := Nat.ofDigitChars 10 l 0

/-- A numeral has to fit a machine integer; other lexemes have no such limit. -/
def Fits (l : List Char) : Prop := IsNumeral l → numeralValue l ≤ Int64.maxValue.toInt

/-- The kind and the payload of the token that a lexeme makes. -/
inductive Denotes : List Char → Kind → Option Payload → Prop
  | keyword {k : Kind} (hk : k.isKeyword) : Denotes k.text.toList k none
  | name {l : List Char} (hl : IsWord l)
      (hk : ∀ k : Kind, k.isKeyword → k.text ≠ String.ofList l) :
      Denotes l .ident (some (.str (String.ofList l)))
  | numeral {l : List Char} {n : Int64} (hl : IsNumeral l) (hn : n.toInt = numeralValue l) :
      Denotes l .int (some (.int n))
  | quoted {body : List Char} (hbody : '"' ∉ body) :
      Denotes ('"' :: body ++ ['"']) .string (some (.str (String.ofList body)))
  | mark {l : List Char} {k : Kind} (hl : (l, k) ∈ marks) : Denotes l k none

/-- Why no token can be made at the head of a text, and the piece of the text
that is to blame. A quote with no other behind it is to blame together with all
that follows it. -/
inductive Failure : List Char → List Char → LexReason → Prop
  | unrecognized {c : Char} {cs : List Char} (hblank : isBlank c = false) (hquote : c ≠ '"')
      (hnone : ∀ l, IsLexeme l → ¬ l <+: c :: cs) : Failure (c :: cs) [c] .unrecognized
  | outOfRange {l cs : List Char} (hl : IsLongest l cs) (hnum : IsNumeral l)
      (hbig : Int64.maxValue.toInt < numeralValue l) : Failure cs l .outOfRange
  | unterminated {cs : List Char} (hopen : '"' ∉ cs) :
      Failure ('"' :: cs) ('"' :: cs) .unterminated

/-! ### First characters

The first characters of the four classes are disjoint, so a lexeme at the head of
a text is of the class that the head of the text says. -/

theorem isDigit_eq_false_of_isAlpha {c : Char} (h : c.isAlpha) : c.isDigit = false := by
  rw [Bool.eq_false_iff]
  intro hdigit
  have hnine : c.toNat ≤ 57 := (Char.isDigit_iff_toNat.1 hdigit).2
  rcases (Bool.or_eq_true c.isUpper c.isLower).mp h with hupper | hlower
  · have hA : 65 ≤ c.toNat := UInt32.le_iff_toNat_le.1 (of_decide_eq_true hupper).1
    omega
  · have ha : 97 ≤ c.toNat :=
      UInt32.le_iff_toNat_le.1 (of_decide_eq_true ((Bool.and_eq_true _ _).mp hlower).1)
    omega

theorem isBlank_eq_false_of_isAlphanum {c : Char} (h : c.isAlphanum) : isBlank c = false := by
  rw [Bool.eq_false_iff]
  intro hb
  simp only [isBlank, Bool.or_eq_true, decide_eq_true_eq] at hb
  rcases hb with ((rfl | rfl) | rfl) | rfl <;> exact absurd h (by decide)

theorem mark_head : ∀ p ∈ marks, ∃ c ∈ p.1.head?,
    c.isAlphanum = false ∧ c ≠ '"' ∧ isBlank c = false := by
  have hall : ∀ p ∈ marks, p.1.head?.any fun c => !c.isAlphanum && c ≠ '"' && !isBlank c := by
    decide
  intro p hp
  obtain ⟨c, hc, hclass⟩ := (Option.any_eq_true _ _).1 (hall p hp)
  simp only [Bool.and_eq_true, Bool.not_eq_true', decide_eq_true_eq] at hclass
  exact ⟨c, hc, hclass.1.1, hclass.1.2, hclass.2⟩

/-- What the first character of a text says of a lexeme at its head. -/
theorem IsLexeme.class_of_head {l : List Char} {c : Char} {cs : List Char} (hl : IsLexeme l)
    (hp : l <+: c :: cs) :
    isBlank c = false ∧ (c.isAlpha → IsWord l) ∧ (c.isDigit → IsNumeral l) ∧
      (c = '"' → IsQuoted l) ∧ (c.isAlphanum = false → c ≠ '"' → IsMark l) := by
  obtain ⟨rest, hrest⟩ := hp
  rcases hl with hword | ⟨hne, hdigits⟩ | ⟨body, hbody, rfl⟩ | hmark
  · obtain _ | ⟨d, l⟩ := l
    · exact hword.elim
    obtain ⟨rfl, -⟩ := List.cons.inj hrest
    have halpha : d.isAlpha := hword.1
    have halnum : d.isAlphanum := by simp [Char.isAlphanum, halpha]
    refine ⟨isBlank_eq_false_of_isAlphanum halnum, fun _ => hword, ?_, ?_, ?_⟩
    · intro hd
      simp [isDigit_eq_false_of_isAlpha halpha] at hd
    · rintro rfl
      exact absurd halpha (by decide)
    · intro hd
      simp [halnum] at hd
  · obtain _ | ⟨d, l⟩ := l
    · exact absurd rfl hne
    obtain ⟨rfl, -⟩ := List.cons.inj hrest
    have hdigit : d.isDigit := hdigits d (by simp)
    have halnum : d.isAlphanum := by simp [Char.isAlphanum, hdigit]
    refine ⟨isBlank_eq_false_of_isAlphanum halnum, ?_, fun _ => ⟨hne, hdigits⟩, ?_, ?_⟩
    · intro ha
      simp [isDigit_eq_false_of_isAlpha ha] at hdigit
    · rintro rfl
      exact absurd hdigit (by decide)
    · intro hd
      simp [halnum] at hd
  · obtain ⟨rfl, -⟩ := List.cons.inj hrest
    refine ⟨by decide, ?_, ?_, fun _ => ⟨body, hbody, rfl⟩, ?_⟩
    · intro h
      exact absurd h (by decide)
    · intro h
      exact absurd h (by decide)
    · intro _ h
      exact absurd rfl h
  · obtain ⟨p, hpmem, rfl⟩ := List.mem_map.1 hmark
    obtain ⟨d, hd, halnum, hquote, hblank⟩ := mark_head p hpmem
    obtain ⟨l', hl'⟩ := List.head?_eq_some_iff.1 hd
    rw [hl'] at hrest
    obtain ⟨rfl, -⟩ := List.cons.inj hrest
    simp only [Char.isAlphanum, Bool.or_eq_false_iff] at halnum
    refine ⟨hblank, ?_, ?_, ?_, fun _ _ => hmark⟩
    · intro ha
      simp [halnum.1] at ha
    · intro hdig
      simp [halnum.2] at hdig
    · intro hq
      exact absurd hq hquote

theorem IsLexeme.ne_nil {l : List Char} (h : IsLexeme l) : l ≠ [] := by
  rintro rfl
  rcases h with hword | hnum | ⟨body, -, hbody⟩ | hmark
  · exact hword
  · exact hnum.1 rfl
  · cases hbody
  · exact absurd hmark (by decide)

theorem IsLongest.unique {l l' cs : List Char} (h : IsLongest l cs) (h' : IsLongest l' cs) :
    l = l' := by
  have hle : l.length ≤ l'.length := h'.2.2 l h.1 h.2.1
  have hge : l'.length ≤ l.length := h.2.2 l' h'.1 h'.2.1
  exact (List.prefix_of_prefix_length_le h.2.1 h'.2.1 hle).eq_of_length (Nat.le_antisymm hle hge)

/-! ### Each class takes as much as it can -/

theorem length_le_length_takeWhile {p : Char → Bool} {l cs : List Char} (hp : l <+: cs)
    (hall : ∀ c ∈ l, p c) : l.length ≤ (cs.takeWhile p).length := by
  obtain ⟨rest, rfl⟩ := hp
  rw [List.takeWhile_append_of_pos hall, List.length_append]
  omega

theorem IsWord.all_isAlphanum {l : List Char} (h : IsWord l) : ∀ c ∈ l, c.isAlphanum := by
  obtain _ | ⟨c, l⟩ := l
  · exact h.elim
  intro d hd
  rcases List.mem_cons.1 hd with rfl | hd
  · simp [Char.isAlphanum, h.1]
  · exact h.2 d hd

theorem isWord_takeWhile {c : Char} {cs : List Char} (hc : c.isAlpha) :
    IsWord ((c :: cs).takeWhile Char.isAlphanum) := by
  rw [List.takeWhile_cons_of_pos (by simp [Char.isAlphanum, hc])]
  exact ⟨hc, fun d hd => List.all_eq_true.1 List.all_takeWhile d hd⟩

theorem isWord_of_isKeyword {k : Kind} (hk : k.isKeyword) : IsWord k.text.toList := by
  cases k <;> first | exact absurd hk (by decide) | decide

theorem isLongest_word {c : Char} (cs : List Char) (hc : c.isAlpha) :
    IsLongest ((c :: cs).takeWhile Char.isAlphanum) (c :: cs) := by
  refine ⟨.inl (isWord_takeWhile hc), List.takeWhile_prefix _, ?_⟩
  intro l hl hp
  have hword : IsWord l := (hl.class_of_head hp).2.1 hc
  exact length_le_length_takeWhile hp hword.all_isAlphanum

theorem isNumeral_takeWhile {c : Char} {cs : List Char} (hc : c.isDigit) :
    IsNumeral ((c :: cs).takeWhile Char.isDigit) := by
  refine ⟨?_, fun d hd => List.all_eq_true.1 List.all_takeWhile d hd⟩
  rw [List.takeWhile_cons_of_pos hc]
  exact List.cons_ne_nil _ _

theorem isLongest_numeral {c : Char} (cs : List Char) (hc : c.isDigit) :
    IsLongest ((c :: cs).takeWhile Char.isDigit) (c :: cs) := by
  refine ⟨.inr (.inl (isNumeral_takeWhile hc)), List.takeWhile_prefix _, ?_⟩
  intro l hl hp
  have hnum : IsNumeral l := (hl.class_of_head hp).2.2.1 hc
  exact length_le_length_takeWhile hp hnum.2

theorem takeWhile_body {body : List Char} (h : '"' ∉ body) (rest : List Char) :
    (body ++ '"' :: rest).takeWhile (· ≠ '"') = body := by
  rw [List.takeWhile_append_of_pos]
  · simp
  · intro c hc
    have hne : c ≠ '"' := fun hq => h (hq ▸ hc)
    simp [hne]

theorem dropWhile_body {body : List Char} (h : '"' ∉ body) (rest : List Char) :
    (body ++ '"' :: rest).dropWhile (· ≠ '"') = '"' :: rest := by
  rw [List.dropWhile_append_of_pos]
  · simp
  · intro c hc
    have hne : c ≠ '"' := fun hq => h (hq ▸ hc)
    simp [hne]

/-- A quoted string at the head of a text ends at the first quote there is. -/
theorem isLongest_quoted {body : List Char} (h : '"' ∉ body) (rest : List Char) :
    IsLongest ('"' :: body ++ ['"']) ('"' :: (body ++ '"' :: rest)) := by
  refine ⟨.inr (.inr (.inl ⟨body, h, rfl⟩)), ⟨rest, by simp⟩, ?_⟩
  intro l hl hp
  obtain ⟨body', hbody', rfl⟩ := (hl.class_of_head hp).2.2.2.1 rfl
  obtain ⟨rest', hrest'⟩ := hp
  have hsame : body' ++ '"' :: rest' = body ++ '"' :: rest := by simpa using hrest'
  have hbody : body' = body := by
    rw [← takeWhile_body hbody' rest', hsame, takeWhile_body h rest]
  exact Nat.le_of_eq (by rw [hbody])

/-- A mark is read as itself unless an equals sign behind it makes it longer. -/
theorem mark?_append {l : List Char} {k : Kind} (hl : (l, k) ∈ marks) {rest : List Char}
    (hrest : IsMark (l ++ ['=']) → rest.head? ≠ some '=') :
    mark? (l ++ rest) = some (k, rest) := by
  simp only [marks, List.mem_cons, Prod.mk.injEq, List.not_mem_nil, or_false] at hl
  rcases hl with ⟨rfl, rfl⟩ | ⟨rfl, rfl⟩ | ⟨rfl, rfl⟩ | ⟨rfl, rfl⟩ | ⟨rfl, rfl⟩ | ⟨rfl, rfl⟩ |
    ⟨rfl, rfl⟩ | ⟨rfl, rfl⟩ | ⟨rfl, rfl⟩ | ⟨rfl, rfl⟩ | ⟨rfl, rfl⟩ | ⟨rfl, rfl⟩ | ⟨rfl, rfl⟩ |
    ⟨rfl, rfl⟩ | ⟨rfl, rfl⟩ | ⟨rfl, rfl⟩ | ⟨rfl, rfl⟩
  all_goals try rfl
  -- What is left are the four marks that are also the first half of another.
  all_goals
    cases rest with
    | nil => rfl
    | cons c cs =>
        have hc : c ≠ '=' := by simpa using hrest (by decide)
        simp [mark?, hc]

theorem text_of_mem_marks : ∀ p ∈ marks, p.2.text.toList = p.1 := by
  decide

/-- No mark is the first half of a mark that is itself the first half of one. -/
theorem not_isMark_append_append :
    ∀ p ∈ marks, ¬IsMark (p.1 ++ ['='] ++ ['=']) := by
  decide

/-- Where a mark stands at the head of a text, one at least as long is read. -/
theorem exists_mark?_of_isMark {l cs : List Char} (hl : IsMark l) (hp : l <+: cs) :
    ∃ k rest, mark? cs = some (k, rest) ∧ l.length ≤ k.text.toList.length := by
  obtain ⟨rest, rfl⟩ := hp
  obtain ⟨⟨l, k⟩, hmem, rfl⟩ := List.mem_map.1 hl
  by_cases hlong : IsMark (l ++ ['=']) ∧ rest.head? = some '='
  · obtain ⟨hopen, hhead⟩ := hlong
    obtain ⟨rest, rfl⟩ := List.head?_eq_some_iff.1 hhead
    obtain ⟨⟨l', k'⟩, hmem', rfl⟩ := List.mem_map.1 hopen
    have hread : mark? (l ++ ['='] ++ rest) = some (k', rest) :=
      mark?_append hmem' fun h => absurd h (not_isMark_append_append _ hmem)
    refine ⟨k', rest, by simpa using hread, ?_⟩
    rw [text_of_mem_marks _ hmem']
    simp
  · have hread : mark? (l ++ rest) = some (k, rest) :=
      mark?_append hmem fun hopen hhead => hlong ⟨hopen, hhead⟩
    exact ⟨k, rest, hread, Nat.le_of_eq (by rw [text_of_mem_marks _ hmem])⟩

theorem mem_marks_of_mark? {cs rest : List Char} {k : Kind} (h : mark? cs = some (k, rest)) :
    (k.text.toList, k) ∈ marks := by
  unfold mark? at h
  split at h <;> cases h <;> decide

theorem isLongest_mark {c : Char} {cs rest : List Char} {k : Kind} (halnum : c.isAlphanum = false)
    (hquote : c ≠ '"') (h : mark? (c :: cs) = some (k, rest)) :
    IsLongest k.text.toList (c :: cs) := by
  have hmark : IsMark k.text.toList := List.mem_map.2 ⟨_, mem_marks_of_mark? h, rfl⟩
  refine ⟨.inr (.inr (.inr hmark)), ⟨rest, text_append_of_mark h⟩, ?_⟩
  intro l hl hp
  obtain ⟨k', rest', hread, hle⟩ :=
    exists_mark?_of_isMark ((hl.class_of_head hp).2.2.2.2 halnum hquote) hp
  rw [h] at hread
  cases hread
  exact hle

/-! ### What reading returns -/

/-- A reading is right for a text: the lexeme it took is the longest and is taken
for what it stands for, or the fault it reports is one of the text. -/
def Reading.IsRight (cs : List Char) : Reading → Prop
  | .ok (l, _) => IsLongest l.text cs ∧ Denotes l.text l.kind l.value
  | .error (text, reason) => Failure cs text reason

theorem word_isRight {c : Char} {cs : List Char} (hc : c.isAlpha) :
    (word (c :: cs)).IsRight (c :: cs) := by
  have hlongest := isLongest_word cs hc
  unfold word
  dsimp only
  split
  · next k hk =>
      obtain ⟨hkey, htext⟩ := (Kind.keyword?_eq_some_iff _ _).1 hk
      refine ⟨hlongest, ?_⟩
      have hd := Denotes.keyword hkey
      rwa [htext, String.toList_ofList] at hd
  · next hk => exact ⟨hlongest, .name (isWord_takeWhile hc) ((Kind.keyword?_eq_none_iff _).1 hk)⟩

theorem number_isRight {c : Char} {cs : List Char} (hc : c.isDigit) :
    (number (c :: cs)).IsRight (c :: cs) := by
  have hlongest := isLongest_numeral cs hc
  unfold number
  dsimp only
  split
  · next n hn =>
      exact ⟨hlongest, .numeral (isNumeral_takeWhile hc) ((toInt64?_eq_some_iff _ _).1 hn)⟩
  · next hn =>
      refine .outOfRange hlongest (isNumeral_takeWhile hc) ?_
      rcases (toInt64?_eq_none_iff _).1 hn with hlow | hhigh
      · rw [Int64.toInt_minValue] at hlow
        omega
      · exact hhigh

theorem string_isRight (cs : List Char) : (string cs).IsRight ('"' :: cs) := by
  have hsplit := List.takeWhile_append_dropWhile (p := fun c => decide (c ≠ '"')) (l := cs)
  have hbody : '"' ∉ cs.takeWhile (· ≠ '"') := by
    intro hq
    have hne := List.all_eq_true.1 List.all_takeWhile _ hq
    simp at hne
  unfold string
  dsimp only
  split
  · next hrest =>
      rw [hrest, List.append_nil] at hsplit
      rw [hsplit] at hbody ⊢
      exact .unterminated hbody
  · next close rest hrest =>
      have hclose : close = '"' := by
        have hhead := List.head?_dropWhile_not (fun c => decide (c ≠ '"')) cs
        rw [hrest] at hhead
        simpa using hhead
      subst hclose
      rw [hrest] at hsplit
      refine ⟨?_, .quoted hbody⟩
      have hlongest := isLongest_quoted hbody rest
      rwa [hsplit] at hlongest

theorem read_isRight {c : Char} (cs : List Char) (hblank : isBlank c = false) :
    (read c cs).IsRight (c :: cs) := by
  unfold read
  split
  · next hc => exact word_isRight hc
  split
  · next hc => exact number_isRight hc
  split
  · next hc =>
      subst hc
      exact string_isRight cs
  next halpha hdigit hquote =>
  have halnum : c.isAlphanum = false := by simp [Char.isAlphanum, halpha, hdigit]
  split
  · next k rest hmark =>
      exact ⟨isLongest_mark halnum hquote hmark, .mark (mem_marks_of_mark? hmark)⟩
  · next hmark =>
      refine .unrecognized hblank hquote ?_
      intro l hl hp
      obtain ⟨k, rest, hread, -⟩ :=
        exists_mark?_of_isMark ((hl.class_of_head hp).2.2.2.2 halnum hquote) hp
      rw [hmark] at hread
      cases hread

theorem isLongest_of_read {c : Char} {cs rest : List Char} {l : Lexeme}
    (hblank : isBlank c = false) (h : read c cs = .ok (l, rest)) : IsLongest l.text (c :: cs) := by
  have hright := read_isRight cs hblank
  rw [h] at hright
  exact hright.1

theorem denotes_of_read {c : Char} {cs rest : List Char} {l : Lexeme}
    (hblank : isBlank c = false) (h : read c cs = .ok (l, rest)) :
    Denotes l.text l.kind l.value := by
  have hright := read_isRight cs hblank
  rw [h] at hright
  exact hright.2

theorem failure_of_read {c : Char} {cs text : List Char} {reason : LexReason}
    (hblank : isBlank c = false) (h : read c cs = .error (text, reason)) :
    Failure (c :: cs) text reason := by
  have hright := read_isRight cs hblank
  rwa [h] at hright

theorem Denotes.isLexeme {l : List Char} {k : Kind} {v : Option Payload} (h : Denotes l k v) :
    IsLexeme l := by
  cases h with
  | keyword hk => exact .inl (isWord_of_isKeyword hk)
  | name hl _ => exact .inl hl
  | numeral hl _ => exact .inr (.inl hl)
  | quoted hbody => exact .inr (.inr (.inl ⟨_, hbody, rfl⟩))
  | mark hl => exact .inr (.inr (.inr (List.mem_map.2 ⟨_, hl, rfl⟩)))

/-- What stands for a token is within the limits of one. -/
theorem Denotes.fits {l : List Char} {k : Kind} {v : Option Payload} (h : Denotes l k v) :
    Fits l := by
  intro hnum
  obtain _ | ⟨c, l⟩ := l
  · exact absurd rfl hnum.1
  have hdigit : c.isDigit := hnum.2 c (by simp)
  generalize hcl : c :: l = cl at h
  cases h with
  | keyword hk =>
      have hword := isWord_of_isKeyword hk
      rw [← hcl] at hword
      simp [isDigit_eq_false_of_isAlpha hword.1] at hdigit
  | name hl _ =>
      subst hcl
      simp [isDigit_eq_false_of_isAlpha hl.1] at hdigit
  | @numeral _ n _ hn =>
      rw [← hn]
      exact n.toInt_le
  | quoted _ =>
      rw [List.cons_append] at hcl
      obtain ⟨rfl, -⟩ := List.cons.inj hcl
      exact absurd hdigit (by decide)
  | mark hl =>
      subst hcl
      obtain ⟨d, hd, halnum, -, -⟩ := mark_head _ hl
      cases hd
      simp [Char.isAlphanum, hdigit] at halnum

theorem not_isLongest_of_unterminated {l cs : List Char} (hopen : '"' ∉ cs) :
    ¬IsLongest l ('"' :: cs) := by
  intro hl
  obtain ⟨body, -, rfl⟩ := (hl.1.class_of_head hl.2.1).2.2.2.1 rfl
  obtain ⟨rest, hrest⟩ := hl.2.1
  refine hopen ?_
  rw [← (List.cons.inj hrest).2]
  simp

/-- A text that can be cut at its head cannot fail there. -/
theorem Failure.not_fits {cs text l : List Char} {reason : LexReason}
    (h : Failure cs text reason) (hl : IsLongest l cs) : ¬Fits l := by
  intro hfits
  cases h with
  | unrecognized _ _ hnone => exact hnone l hl.1 hl.2.1
  | outOfRange htext hnum hbig =>
      rw [hl.unique htext] at hfits
      have hsmall := hfits hnum
      omega
  | unterminated hopen => exact not_isLongest_of_unterminated hopen hl

theorem Failure.head {cs text : List Char} {reason : LexReason} (h : Failure cs text reason) :
    ∃ c cs', cs = c :: cs' ∧ isBlank c = false := by
  cases h with
  | unrecognized hblank _ _ => exact ⟨_, _, rfl, hblank⟩
  | outOfRange hl _ _ =>
      obtain _ | ⟨c, cs⟩ := cs
      · exact absurd (List.prefix_nil.1 hl.2.1) hl.1.ne_nil
      · exact ⟨c, cs, rfl, (hl.1.class_of_head hl.2.1).1⟩
  | unterminated _ => exact ⟨_, _, rfl, by decide⟩

/-- The cause of a failure and the piece to blame are settled by the text. -/
theorem Failure.unique {cs text text' : List Char} {reason reason' : LexReason}
    (h : Failure cs text reason) (h' : Failure cs text' reason') :
    text = text' ∧ reason = reason' := by
  cases h with
  | unrecognized _ hquote hnone =>
      cases h' with
      | unrecognized _ _ _ => exact ⟨rfl, rfl⟩
      | outOfRange hl _ _ => exact absurd hl.2.1 (hnone _ hl.1)
      | unterminated _ => exact absurd rfl hquote
  | outOfRange hl _ _ =>
      cases h' with
      | unrecognized _ _ hnone => exact absurd hl.2.1 (hnone _ hl.1)
      | outOfRange hl' _ _ => exact ⟨hl.unique hl', rfl⟩
      | unterminated hopen => exact absurd hl (not_isLongest_of_unterminated hopen)
  | unterminated hopen =>
      cases h' with
      | unrecognized _ hquote _ => exact absurd rfl hquote
      | outOfRange hl' _ _ => exact absurd hl' (not_isLongest_of_unterminated hopen)
      | unterminated _ => exact ⟨rfl, rfl⟩

/-! ### Reading a lexeme back

A lexeme is read back as itself when what follows it cannot make it longer. Only
the character right behind it matters, and which characters would count depends
on the kind alone. -/

/-- A character that would make a lexeme of this kind longer. -/
def grows (k : Kind) (c : Char) : Bool :=
  if k.isKeyword || k = .ident then c.isAlphanum
  else if k = .int then c.isDigit
  else k ∈ [Kind.assign, .bang, .less, .greater] && c = '='

theorem takeWhile_append_of_head {p : Char → Bool} {l rest : List Char} (hl : ∀ c ∈ l, p c)
    (hrest : ∀ c ∈ rest.head?, p c = false) : (l ++ rest).takeWhile p = l := by
  rw [List.takeWhile_append_of_pos hl]
  cases rest with
  | nil => simp
  | cons c rest => simp [hrest c rfl]

theorem dropWhile_append_of_head {p : Char → Bool} {l rest : List Char} (hl : ∀ c ∈ l, p c)
    (hrest : ∀ c ∈ rest.head?, p c = false) : (l ++ rest).dropWhile p = rest := by
  rw [List.dropWhile_append_of_pos hl]
  cases rest with
  | nil => simp
  | cons c rest => simp [hrest c rfl]

theorem word_append {l rest : List Char} (hl : IsWord l)
    (hrest : ∀ c ∈ rest.head?, c.isAlphanum = false) :
    word (l ++ rest) = .ok ((Kind.keyword? (String.ofList l)).elim
      ⟨l, .ident, some (.str (String.ofList l))⟩ (fun k => ⟨l, k, none⟩), rest) := by
  have htake := takeWhile_append_of_head hl.all_isAlphanum hrest
  have hdrop := dropWhile_append_of_head hl.all_isAlphanum hrest
  cases hword : Kind.keyword? (String.ofList l) <;>
    simp only [word, htake, hdrop, hword, Option.elim]

theorem number_append {l rest : List Char} {n : Int64} (hl : IsNumeral l)
    (hn : n.toInt = numeralValue l) (hrest : ∀ c ∈ rest.head?, c.isDigit = false) :
    number (l ++ rest) = .ok (⟨l, .int, some (.int n)⟩, rest) := by
  have hint : toInt64? (Nat.ofDigitChars 10 l 0) = some n := (toInt64?_eq_some_iff _ _).2 hn
  unfold number
  rw [takeWhile_append_of_head hl.2 hrest, dropWhile_append_of_head hl.2 hrest]
  dsimp only
  rw [hint]

theorem string_append {body : List Char} (h : '"' ∉ body) (rest : List Char) :
    string (body ++ '"' :: rest) =
      .ok (⟨'"' :: body ++ ['"'], .string, some (.str (String.ofList body))⟩, rest) := by
  unfold string
  rw [takeWhile_body h, dropWhile_body h]

theorem read_of_isAlpha {c : Char} {cs : List Char} (hc : c.isAlpha) :
    read c cs = word (c :: cs) := by
  rw [read, if_pos hc]

theorem read_of_isDigit {c : Char} {cs : List Char} (hc : c.isDigit) :
    read c cs = number (c :: cs) := by
  have halpha : ¬c.isAlpha := by
    intro ha
    simp [isDigit_eq_false_of_isAlpha ha] at hc
  rw [read, if_neg halpha, if_pos hc]

theorem read_of_mark? {c : Char} {cs rest : List Char} {k : Kind} (halnum : c.isAlphanum = false)
    (hquote : c ≠ '"') (h : mark? (c :: cs) = some (k, rest)) :
    read c cs = .ok (⟨k.text.toList, k, none⟩, rest) := by
  simp only [Char.isAlphanum, Bool.or_eq_false_iff] at halnum
  rw [read, if_neg (by simp [halnum.1]), if_neg (by simp [halnum.2]), if_neg hquote, h]

theorem mem_of_isMark_append :
    ∀ p ∈ marks, IsMark (p.1 ++ ['=']) → p.2 ∈ [Kind.assign, .bang, .less, .greater] := by
  decide

theorem not_keyword_of_mem_marks :
    ∀ p ∈ marks, (p.2.isKeyword || p.2 = .ident) = false ∧ p.2 ≠ .int := by
  decide

theorem read_append {c : Char} {l rest : List Char} {k : Kind} {v : Option Payload}
    (hd : Denotes (c :: l) k v) (hrest : ∀ d ∈ rest.head?, grows k d = false) :
    read c (l ++ rest) = .ok (⟨c :: l, k, v⟩, rest) := by
  generalize hcl : c :: l = cl at hd
  cases hd with
  | keyword hk =>
      have hword := isWord_of_isKeyword hk
      have hclear : ∀ d ∈ rest.head?, d.isAlphanum = false := by
        intro d hd
        simpa [grows, hk] using hrest d hd
      have hkey : Kind.keyword? (String.ofList k.text.toList) = some k := by
        rw [String.ofList_toList]
        exact (Kind.keyword?_eq_some_iff _ _).2 ⟨hk, rfl⟩
      rw [← hcl] at hword hkey ⊢
      rw [read_of_isAlpha hword.1, ← List.cons_append, word_append hword hclear, hkey,
        Option.elim_some]
  | name hl hk =>
      subst hcl
      have hclear : ∀ d ∈ rest.head?, d.isAlphanum = false := by
        intro d hd
        simpa [grows] using hrest d hd
      rw [read_of_isAlpha hl.1, ← List.cons_append, word_append hl hclear,
        (Kind.keyword?_eq_none_iff _).2 hk, Option.elim_none]
  | numeral hl hn =>
      subst hcl
      have hclear : ∀ d ∈ rest.head?, d.isDigit = false := by
        intro d hd
        simpa [grows, Kind.isKeyword] using hrest d hd
      rw [read_of_isDigit (hl.2 c (by simp)), ← List.cons_append, number_append hl hn hclear]
  | quoted hbody =>
      rw [List.cons_append] at hcl
      obtain ⟨rfl, rfl⟩ := List.cons.inj hcl
      rw [List.append_assoc]
      exact string_append hbody rest
  | mark hl =>
      subst hcl
      obtain ⟨d, hd, halnum, hquote, -⟩ := mark_head _ hl
      cases hd
      have hread : mark? (c :: (l ++ rest)) = some (k, rest) := by
        rw [← List.cons_append]
        refine mark?_append hl ?_
        intro hopen hhead
        have hgrows := hrest '=' hhead
        have hkind := mem_of_isMark_append _ hl hopen
        obtain ⟨hkey, hint⟩ := not_keyword_of_mem_marks _ hl
        simp [grows, hkey, hint, hkind] at hgrows
      rw [read_of_mark? halnum hquote hread, text_of_mem_marks _ hl]

/-- A lexeme stands for one thing only. -/
theorem Denotes.unique {l : List Char} {k k' : Kind} {v v' : Option Payload}
    (h : Denotes l k v) (h' : Denotes l k' v') : k = k' ∧ v = v' := by
  obtain _ | ⟨c, l⟩ := l
  · exact absurd rfl h.isLexeme.ne_nil
  have hread : read c (l ++ []) = .ok (⟨c :: l, k, v⟩, []) := read_append h (by simp)
  rw [read_append h' (by simp)] at hread
  simp only [Except.ok.injEq, Prod.mk.injEq, Lexeme.mk.injEq, true_and, and_true] at hread
  exact ⟨hread.1.symm, hread.2.symm⟩

end Lexeme

end Quill
