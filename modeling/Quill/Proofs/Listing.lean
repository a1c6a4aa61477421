import Mathlib
import Quill.Proofs.Histories
import Quill.Proofs.Numerals
import Quill.Proofs.Sessions

/-!
What the listing of the variables tells. It gives away the name, the type and the text of
every variable, and their order, so there are no two sessions that list alike and hold
anything else.

It is read from the outside inward. No line of the listing holds a line end, since strings
are shown with theirs escaped, so the lines come apart. A name holds no blank, so in each
line the name comes apart from the value. By its first character, or as a word, or by what
numbers are written with, a value shows its type; and of what stands between quotes one
character after another can be read back (`Text.unescape_escape`), whichever characters
are shown by their code points.
-/

namespace Quill

/-! ### Between quotes -/

namespace Text

def hexDigit (c : Char) : Nat :=
  if c.isDigit then c.toNat - '0'.toNat else c.toNat - 'a'.toNat + 10

/-- The number that hexadecimal digits stand for. -/
def hexValue (digits : List Char) : Nat := digits.foldl (fun n c => 16 * n + hexDigit c) 0

theorem hexDigit_digitChar : ∀ d < 16, hexDigit (Nat.digitChar d) = d := by decide

theorem hexValue_toDigits (n : Nat) : hexValue (Nat.toDigits 16 n) = n := by
  induction n using Nat.strongRecOn with
  | ind n ih =>
      rw [Nat.toDigits_eq_if (by decide)]
      split
      · next h => simp [hexValue, hexDigit_digitChar n h]
      · next h =>
          have hlast : hexDigit (n % 16).digitChar = n % 16 :=
            hexDigit_digitChar _ (Nat.mod_lt n (by decide))
          have hfront : hexValue (Nat.toDigits 16 (n / 16)) = n / 16 := ih _ (by omega)
          rw [hexValue, List.foldl_append, ← hexValue, hfront, List.foldl_cons, List.foldl_nil,
            hlast]
          exact Nat.div_add_mod n 16

theorem notMem_toDigits {c : Char} (h : ∀ d : Nat, d.digitChar ≠ c) (n : Nat) :
    c ∉ Nat.toDigits 16 n := by
  induction n using Nat.strongRecOn with
  | ind n ih =>
      rw [Nat.toDigits_eq_if (by decide)]
      split
      · simpa using (h n).symm
      · simpa [(h (n % 16)).symm] using ih (n / 16) (by omega)

/-- What a backslash and the characters behind it stand for, and what remains of them. -/
def unescapeMark : List Char → Option (Char × List Char)
  | '0' :: rest => some ('\x00', rest)
  | 't' :: rest => some ('\t', rest)
  | 'r' :: rest => some ('\r', rest)
  | 'n' :: rest => some ('\n', rest)
  | 'u' :: '\x7b' :: rest =>
      let digits := rest.takeWhile (· ≠ '\x7d')
      some (.ofNat (hexValue digits), rest.drop (digits.length + 1))
  | c :: rest => some (c, rest)
  | [] => none

/-- The first character of what stands between quotes, and what remains. -/
def unescape : List Char → Option (Char × List Char)
  | [] => none
  | c :: rest => if c = '\\' then unescapeMark rest else some (c, rest)

theorem unescape_codePoint (c : Char) (rest : List Char) :
    unescape (codePoint c ++ rest) = some (c, rest) := by
  let digits := Nat.toDigits 16 c.toNat
  have hbrace : '\x7d' ∉ digits := notMem_toDigits (fun d => Nat.digitChar_ne _ (by decide)) _
  have hdigits : (digits ++ '\x7d' :: rest).takeWhile (· ≠ '\x7d') = digits := by
    refine Lexeme.takeWhile_append_of_head (fun a ha => ?_) (by simp)
    simpa using fun h : a = '\x7d' => hbrace (h ▸ ha)
  have hcode : codePoint c ++ rest = '\\' :: 'u' :: '\x7b' :: (digits ++ '\x7d' :: rest) := by
    simp [codePoint, digits]
  rw [hcode]
  simp only [unescape, if_true, unescapeMark, hdigits]
  have hdrop : (digits ++ '\x7d' :: rest).drop (digits.length + 1) = rest := by
    rw [← List.drop_drop, List.drop_left, List.drop_succ_cons, List.drop_zero]
  rw [hdrop, hexValue_toDigits, Char.ofNat_toNat]

/-- The characters that are shown by a backslash and a mark, and the marks. -/
def escapeMarks : List (Char × Char) :=
  [('\x00', '0'), ('\t', 't'), ('\r', 'r'), ('\n', 'n'), ('"', '"'), ('\\', '\\')]

/-- A character is shown by its mark, by its code point, or by itself. -/
theorem escape_eq_or (hidden : Char → Bool) (c : Char) :
    (∃ mark, (c, mark) ∈ escapeMarks ∧ escape hidden c = ['\\', mark]) ∨
      escape hidden c = codePoint c ∨ (c ≠ '\\' ∧ c ≠ '\n' ∧ escape hidden c = [c]) := by
  unfold escape
  split_ifs with hzero htab hreturn hnewline hquote hbackslash
  · exact .inl ⟨'0', by simp [escapeMarks, hzero], rfl⟩
  · exact .inl ⟨'t', by simp [escapeMarks, htab], rfl⟩
  · exact .inl ⟨'r', by simp [escapeMarks, hreturn], rfl⟩
  · exact .inl ⟨'n', by simp [escapeMarks, hnewline], rfl⟩
  · exact .inl ⟨'"', by simp [escapeMarks, hquote], rfl⟩
  · exact .inl ⟨'\\', by simp [escapeMarks, hbackslash], rfl⟩
  · exact .inr (.inl rfl)
  · exact .inr (.inr ⟨hbackslash, hnewline, rfl⟩)

theorem unescapeMark_of_mem {c mark : Char} (h : (c, mark) ∈ escapeMarks) (rest : List Char) :
    unescapeMark (mark :: rest) = some (c, rest) := by
  simp only [escapeMarks, List.mem_cons, Prod.mk.injEq, List.not_mem_nil, or_false] at h
  rcases h with ⟨rfl, rfl⟩ | ⟨rfl, rfl⟩ | ⟨rfl, rfl⟩ | ⟨rfl, rfl⟩ | ⟨rfl, rfl⟩ | ⟨rfl, rfl⟩ <;> rfl

/-- Which characters are hidden does not matter to the reader. -/
theorem unescape_escape (hidden : Char → Bool) (c : Char) (rest : List Char) :
    unescape (escape hidden c ++ rest) = some (c, rest) := by
  rcases escape_eq_or hidden c with ⟨mark, hmark, heq⟩ | heq | ⟨hbackslash, -, heq⟩
  · rw [heq]
    exact unescapeMark_of_mem hmark rest
  · rw [heq]
    exact unescape_codePoint c rest
  · rw [heq]
    exact if_neg hbackslash

theorem flatMap_escape_injective (hidden : Char → Bool) :
    Function.Injective fun cs : List Char => cs.flatMap (escape hidden) := by
  intro cs ds h
  dsimp only at h
  induction cs generalizing ds with
  | nil =>
      cases ds with
      | nil => rfl
      | cons d ds =>
          have hread := congrArg unescape h
          rw [List.flatMap_cons, unescape_escape] at hread
          cases hread
  | cons c cs ih =>
      cases ds with
      | nil =>
          have hread := congrArg unescape h
          rw [List.flatMap_cons, unescape_escape] at hread
          cases hread
      | cons d ds =>
          have hread := congrArg unescape h
          rw [List.flatMap_cons, List.flatMap_cons, unescape_escape, unescape_escape] at hread
          obtain ⟨rfl, hrest⟩ := Prod.mk.inj (Option.some.inj hread)
          rw [ih hrest]

theorem toList_quoteWith (hidden : Char → Bool) (s : String) :
    (quoteWith hidden s).toList = '"' :: s.toList.flatMap (escape hidden) ++ ['"'] :=
  String.toList_ofList

theorem quoteWith_injective (hidden : Char → Bool) : Function.Injective (quoteWith hidden) := by
  intro s t h
  have hlist := congrArg String.toList h
  rw [toList_quoteWith, toList_quoteWith] at hlist
  have hinner := List.append_cancel_right (List.cons.inj hlist).2
  exact String.toList_inj.1 (flatMap_escape_injective hidden hinner)

theorem newline_notMem_codePoint (c : Char) : '\n' ∉ codePoint c := by
  have hdigits := notMem_toDigits (fun d => Nat.digitChar_ne '\n' (by decide)) c.toNat
  simp [codePoint, hdigits]

theorem newline_notMem_escape (hidden : Char → Bool) (c : Char) : '\n' ∉ escape hidden c := by
  have hmarks : ∀ b ∈ escapeMarks, b.2 ≠ '\n' := by decide
  rcases escape_eq_or hidden c with ⟨mark, hmark, heq⟩ | heq | ⟨-, hnewline, heq⟩
  · simpa [heq] using (hmarks _ hmark).symm
  · rw [heq]
    exact newline_notMem_codePoint c
  · simpa [heq] using hnewline.symm

theorem newline_notMem_quoteWith (hidden : Char → Bool) (s : String) :
    '\n' ∉ (quoteWith hidden s).toList := by
  simp [toList_quoteWith, newline_notMem_escape]

end Text

/-! ### Values -/

namespace Session

/-- What a line of the listing has behind the name. -/
def shown (hidden : Char → Bool) : Value → String
  | .str s => Text.quoteWith hidden s
  | v => v.text

theorem describeBinding_eq (hidden : Char → Bool) (b : String × Value) :
    describeBinding hidden b = b.1 ++ " = " ++ shown hidden b.2 := by
  obtain ⟨x, v⟩ := b
  cases v <;> rfl

/-- The type of a value that is shown like this. -/
def shownType (text : String) : ValueType :=
  if text = "nil" then .nil
  else if text = "true" ∨ text = "false" then .bool
  else if text.toList.head? = some '"' then .string
  else if text.toList.all fun c => c.isDigit || c = '-' then .int
  else .real

/-- Each of the words for other values has an `l` or a `t`, and no number has. -/
theorem shownType_of_isNumeric {text : String} (h : ∀ c ∈ text.toList, isNumeric c) :
    shownType text =
      if text.toList.all fun c => c.isDigit || c = '-' then .int else .real := by
  have hne {word : String} {c : Char} (hc : isNumeric c = false) (hword : c ∈ word.toList) :
      text ≠ word := by
    rintro rfl
    exact notMem_of_isNumeric h hc hword
  have hl {word : String} (hword : 'l' ∈ word.toList) : text ≠ word := hne rfl hword
  have ht {word : String} (hword : 't' ∈ word.toList) : text ≠ word := hne rfl hword
  have hquote : text.toList.head? ≠ some '"' :=
    fun hhead => notMem_of_isNumeric h rfl (List.mem_of_head? hhead)
  unfold shownType
  rw [if_neg (hl (by decide)), if_neg (not_or.2 ⟨ht (by decide), hl (by decide)⟩),
    if_neg hquote]

theorem shownType_toString (n : Int) : shownType (toString n) = .int := by
  rw [shownType_of_isNumeric (isNumeric_of_mem_toString n), if_pos]
  refine List.all_eq_true.2 fun c hc => ?_
  simpa using isDigit_or_of_mem_toString n c hc

theorem shownType_text (x : Exact) : shownType x.text = .real := by
  rcases x.text_eq_or with hword | ⟨hchars, hmark⟩
  · generalize x.text = word at hword
    revert word
    decide
  · rw [shownType_of_isNumeric hchars, if_neg]
    rw [List.all_eq_true]
    intro hall
    rcases hmark with hpoint | hexponent
    · exact absurd (hall _ hpoint) (by decide)
    · exact absurd (hall _ hexponent) (by decide)

theorem shownType_quoteWith (hidden : Char → Bool) (s : String) :
    shownType (Text.quoteWith hidden s) = .string := by
  have hhead : (Text.quoteWith hidden s).toList.head? = some '"' := by
    rw [Text.toList_quoteWith]
    rfl
  have hne {word : String} (hword : word.toList.head? ≠ some '"') :
      Text.quoteWith hidden s ≠ word := by
    rintro rfl
    exact hword hhead
  unfold shownType
  rw [if_neg (hne (by decide)), if_neg (not_or.2 ⟨hne (by decide), hne (by decide)⟩),
    if_pos hhead]

/-- The type of a value can be read off what is shown of it. -/
theorem shownType_shown (hidden : Char → Bool) (v : Value) :
    shownType (shown hidden v) = v.type := by
  cases v with
  | nil => rfl
  | bool b => cases b <;> rfl
  | int n => exact shownType_toString n.toInt
  | real x => exact shownType_text (.ofFloat x)
  | str s => exact shownType_quoteWith hidden s

/-- Values that are shown alike are of one type and have one text, and unless they are
reals they are the same. -/
theorem eq_of_shown_eq {hidden : Char → Bool} {u v : Value} (h : shown hidden u = shown hidden v) :
    u.type = v.type ∧ u.text = v.text ∧ (u.type ≠ .real → u = v) := by
  have htype : u.type = v.type := by
    rw [← shownType_shown hidden u, h, shownType_shown]
  have hsame (heq : u = v) : u.type = v.type ∧ u.text = v.text ∧ (u.type ≠ .real → u = v) :=
    ⟨htype, congrArg Value.text heq, fun _ => heq⟩
  have hbool : ∀ b c : Bool, (Value.bool b).text = (Value.bool c).text → b = c := by decide
  cases u with
  | nil =>
      cases v <;> cases htype
      exact hsame rfl
  | bool b =>
      cases v <;> cases htype
      next c =>
        exact hsame (congrArg Value.bool (hbool b c h))
  | int n =>
      cases v <;> cases htype
      next m => exact hsame (congrArg Value.int (Int64.toInt_inj.1 (Int.repr_inj.1 h)))
  | real x =>
      cases v <;> cases htype
      next y => exact ⟨rfl, h, fun hne => absurd rfl hne⟩
  | str s =>
      cases v <;> cases htype
      next t => exact hsame (congrArg Value.str (Text.quoteWith_injective hidden h))

/-! ### Lines -/

/-- Two bindings of one name whose values are of one type and have one text. Only two reals
can be different values then. -/
structure Indistinct (b c : String × Value) : Prop where
  name : b.1 = c.1
  type : b.2.type = c.2.type
  text : b.2.text = c.2.text
  value : b.2.type ≠ .real → b.2 = c.2

theorem toList_describeBinding (hidden : Char → Bool) (b : String × Value) :
    (describeBinding hidden b).toList =
      b.1.toList ++ ' ' :: ('=' :: ' ' :: (shown hidden b.2).toList) := by
  rw [describeBinding_eq]
  simp

section

variable {hidden : Char → Bool} {b c : String × Value}

theorem takeWhile_describeBinding (hidden : Char → Bool) (hb : IsName b.1) :
    (describeBinding hidden b).toList.takeWhile Char.isAlphanum = b.1.toList := by
  rw [toList_describeBinding]
  refine Lexeme.takeWhile_append_of_head hb.1.all_isAlphanum fun d hd => ?_
  cases hd
  rfl

theorem indistinct_of_describeBinding_eq (hb : IsName b.1) (hc : IsName c.1)
    (h : describeBinding hidden b = describeBinding hidden c) : Indistinct b c := by
  have hname : b.1.toList = c.1.toList := by
    rw [← takeWhile_describeBinding hidden hb, h, takeWhile_describeBinding hidden hc]
  have hlist := congrArg String.toList h
  rw [toList_describeBinding, toList_describeBinding, hname] at hlist
  have hshown := List.append_cancel_left hlist
  simp only [List.cons.injEq, true_and] at hshown
  obtain ⟨htype, htext, hvalue⟩ := eq_of_shown_eq (String.toList_inj.1 hshown)
  exact ⟨String.toList_inj.1 hname, htype, htext, hvalue⟩

/-- Having no variables is not shown as a variable is. -/
theorem describeBinding_ne_noVariables (hb : IsName b.1) :
    describeBinding hidden b ≠ "(no variables)" := by
  intro h
  have hname := takeWhile_describeBinding hidden hb
  rw [h] at hname
  have hword : Lexeme.IsWord [] := by simpa [← hname] using hb.1
  exact hword

theorem newline_notMem_shown (v : Value) : '\n' ∉ (shown hidden v).toList := by
  cases v with
  | str s => exact Text.newline_notMem_quoteWith hidden s
  | _ => exact Value.notMem_text (by decide) (by decide) nofun

theorem newline_notMem_describeBinding (hb : IsName b.1) :
    '\n' ∉ (describeBinding hidden b).toList := by
  have hname : '\n' ∉ b.1.toList :=
    fun h => absurd (hb.1.all_isAlphanum _ h) (by decide)
  rw [toList_describeBinding]
  simp [hname, newline_notMem_shown]

-- A string does not pass for the end of its line and a line behind it.
example : describeBinding (fun _ => false) ("s", .str "1\nt = \"") = "s = \"1\\nt = \\\"\"" := by
  decide +kernel

end

/-- The lines of the listing. -/
def listed (hidden : Char → Bool) : List (String × Value) → List String
  | [] => ["(no variables)"]
  | bs => bs.map (describeBinding hidden)

section

variable {hidden : Char → Bool} {bs cs : List (String × Value)}

theorem describeWith_eq (hidden : Char → Bool) (e : Env) :
    describeWith hidden e = "\n".intercalate (listed hidden e.bindings) := by
  unfold describeWith
  generalize e.bindings = bs
  cases bs <;> rfl

theorem splitOn_listed (hbs : ∀ b ∈ bs, IsName b.1) :
    ("\n".intercalate (listed hidden bs)).toList.splitOn '\n' =
      (listed hidden bs).map String.toList := by
  rw [String.toList_intercalate]
  refine List.splitOn_intercalate '\n' ?_ ?_
  · intro l hl
    obtain ⟨line, hline, rfl⟩ := List.mem_map.1 hl
    cases bs with
    | nil =>
        rw [List.mem_singleton.1 hline]
        decide
    | cons b bs =>
        obtain ⟨c, hc, rfl⟩ := List.mem_map.1 hline
        exact newline_notMem_describeBinding (hbs c hc)
  · cases bs <;> simp [listed]

theorem indistinct_of_map_eq (hbs : ∀ b ∈ bs, IsName b.1) (hcs : ∀ c ∈ cs, IsName c.1)
    (h : bs.map (describeBinding hidden) = cs.map (describeBinding hidden)) :
    List.Forall₂ Indistinct bs cs := by
  induction bs generalizing cs with
  | nil =>
      obtain rfl : cs = [] := List.map_eq_nil_iff.1 h.symm
      exact .nil
  | cons b bs ih =>
      cases cs with
      | nil => cases h
      | cons c cs =>
          obtain ⟨hb, hbs⟩ := List.forall_mem_cons.1 hbs
          obtain ⟨hc, hcs⟩ := List.forall_mem_cons.1 hcs
          obtain ⟨hhead, htail⟩ := List.cons.inj h
          exact .cons (indistinct_of_describeBinding_eq hb hc hhead) (ih hbs hcs htail)

theorem indistinct_of_listed_eq (hbs : ∀ b ∈ bs, IsName b.1) (hcs : ∀ c ∈ cs, IsName c.1)
    (h : listed hidden bs = listed hidden cs) : List.Forall₂ Indistinct bs cs := by
  have hne {b : String × Value} (hb : IsName b.1) : describeBinding hidden b ≠ "(no variables)" :=
    describeBinding_ne_noVariables hb
  cases bs with
  | nil =>
      cases cs with
      | nil => exact .nil
      | cons c cs => exact absurd (List.cons.inj h).1.symm (hne (hcs c (by simp)))
  | cons b bs =>
      cases cs with
      | nil => exact absurd (List.cons.inj h).1 (hne (hbs b (by simp)))
      | cons c cs => exact indistinct_of_map_eq hbs hcs h

/-- Two listings that are the same text are listings of the same variables. -/
theorem indistinct_of_describeWith_eq {e e' : Env} (he : ∀ b ∈ e.bindings, IsName b.1)
    (he' : ∀ b ∈ e'.bindings, IsName b.1) (h : describeWith hidden e = describeWith hidden e') :
    List.Forall₂ Indistinct e.bindings e'.bindings := by
  rw [describeWith_eq, describeWith_eq] at h
  have hsplit := congrArg (fun text => text.toList.splitOn '\n') h
  rw [splitOn_listed he, splitOn_listed he'] at hsplit
  have hlisted : listed hidden e.bindings = listed hidden e'.bindings :=
    List.map_injective_iff.2 (fun _ _ => String.toList_inj.1) hsplit
  exact indistinct_of_listed_eq he he' hlisted

end

/-! ### Sessions -/

variable {H : Type} [HostLike H]

/-- What a session lists has names that a program could have declared. -/
theorem Goes.isName_of_mem_bindings {host : H} {steps : List (String × Outcome Reply H)}
    {w : World H} (h : Goes (.initial host) steps w) : ∀ b ∈ w.env.bindings, IsName b.1 := by
  have hstart : (World.initial host).env.Named := by
    simp [World.initial, Env.Named, Env.names, Env.initial, Frame.names]
  obtain ⟨hnamed, -⟩ := invariant_named.of_session h hstart
  intro b hb
  have hmem : b.1 ∈ w.env.bindings.map Prod.fst := List.mem_map_of_mem hb
  rw [Env.names_bindings, List.mem_eraseDups] at hmem
  obtain ⟨ns, hns, hmem⟩ := List.mem_flatten.1 hmem
  exact (hnamed ns hns).2 b.1 hmem

/-- The listing of a session leaves nothing open. If the command gives the same text in two
sessions, however these have gone and on whatever host, then the same names can be seen in
both, in the same order, with values of the same types and texts, so that they are the same
values unless they are reals. Nothing hangs on which characters of a string are shown by
their code points. -/
theorem indistinct_of_listing_eq {host host' : H} {steps steps' : List (String × Outcome Reply H)}
    {w w' : World H} (h : Goes (.initial host) steps w) (h' : Goes (.initial host') steps' w') :
    (∀ n n', ∃ text text', evalLine n ":env" w = .done (.info text) w ∧
      evalLine n' ":env" w' = .done (.info text') w' ∧
      (text = text' → List.Forall₂ Indistinct w.env.bindings w'.env.bindings)) ∧
    ∀ hidden, describeWith hidden w.env = describeWith hidden w'.env →
      List.Forall₂ Indistinct w.env.bindings w'.env.bindings := by
  have hlisting (hidden : Char → Bool) :
      describeWith hidden w.env = describeWith hidden w'.env →
        List.Forall₂ Indistinct w.env.bindings w'.env.bindings :=
    indistinct_of_describeWith_eq h.isName_of_mem_bindings h'.isName_of_mem_bindings
  have hrequest : Request.ofLine ":env" = .listing := by decide +kernel
  have hline (n : Nat) (u : World H) : evalLine n ":env" u = .done (.info (describe u.env)) u := by
    simp only [evalLine, hrequest]
  exact ⟨fun n n' => ⟨_, _, hline n w, hline n' w', hlisting Text.isHidden⟩, hlisting⟩

/-- The one session declares and assigns at once, the other one later and in a line that
fails after it. -/
theorem indistinct_of_listing_eq_newline :
    let w : World := ⟨⟨[[("s", .str "\n")]]⟩, .ofFiles fun _ => none⟩
    let v : World := { w with env := ⟨[[("s", .nil)]]⟩ }
    Goes (.initial w.host) [("let s=\"\n\";", .done .nothing w)] w ∧
    Goes (.initial w.host) [("let s;", .done .nothing v),
      ("s=\"\n\";x;", .fault (.nameNotFound "x") w)] w ∧
    List.Forall₂ Indistinct w.env.bindings w.env.bindings := by
  intro w v
  let s : Token := ⟨.ident, 1, some (.str "s")⟩
  let x : Token := ⟨.ident, 2, some (.str "x")⟩
  let newline : Token := ⟨.string, 1, some (.str "\n")⟩
  have hdefine : Tree.ofText "let s=\"\n\";" = .ok (.define s (.leaf newline)) := by
    have hlex : lex "let s=\"\n\";" = .ok [⟨.kwLet, 1, none⟩, s, ⟨.assign, 1, none⟩, newline,
        ⟨.semi, 2, none⟩, ⟨.eof, 2, none⟩] := by decide +kernel
    exact Tree.ofText_eq_ok_iff.2 ⟨_, hlex, rfl⟩
  have hdeclare : Tree.ofText "let s;" = .ok (.declare s) := by
    have hlex : lex "let s;" = .ok [⟨.kwLet, 1, none⟩, s, ⟨.semi, 1, none⟩, ⟨.eof, 1, none⟩] := by
      decide +kernel
    exact Tree.ofText_eq_ok_iff.2 ⟨_, hlex, rfl⟩
  have hassign : Tree.ofText "s=\"\n\";x;" =
      .ok (.scope [.assign s (.leaf newline), .leaf x]) := by
    have hlex : lex "s=\"\n\";x;" = .ok [s, ⟨.assign, 1, none⟩, newline, ⟨.semi, 2, none⟩, x,
        ⟨.semi, 2, none⟩, ⟨.eof, 2, none⟩] := by decide +kernel
    exact Tree.ofText_eq_ok_iff.2 ⟨_, hlex, rfl⟩
  have hgoes : Goes (.initial w.host) [("let s=\"\n\";", .done .nothing w)] w := by
    refine .cons (n := 5) ?_ rfl (.nil w)
    rw [evalLine_of_ofText (by decide +kernel) hdefine]
    rfl
  have hgoes' : Goes (.initial w.host) [("let s;", .done .nothing v),
      ("s=\"\n\";x;", .fault (.nameNotFound "x") w)] w := by
    refine .cons (n := 5) ?_ rfl (.cons (n := 5) ?_ rfl (.nil w))
    · rw [evalLine_of_ofText (by decide +kernel) hdeclare]
      rfl
    · rw [evalLine_of_ofText (by decide +kernel) hassign]
      rfl
  obtain ⟨-, hlisting⟩ := indistinct_of_listing_eq hgoes hgoes'
  exact ⟨hgoes, hgoes', hlisting Text.isHidden rfl⟩

end Session

end Quill
