import WgslKernel.Json
import WgslKernel.Proofs.Listing.Readers
import WgslKernel.Proofs.Source.Lexing

/-!
# The grammar of JSON

`Json.Reads` is the grammar of JSON, with natural numbers for its numbers.  A text spells one value
at most, and the indented text of a value spells that value.
-/

namespace WgslKernel.Json

open List

variable {c : Char} {cs cs' rest rest' : List Char} {j : Json}

/-! ## Grammar -/

/-- White space between tokens. -/
def isSpace (c : Char) : Bool := c == ' ' || c == '\n' || c == '\r' || c == '\t'

/-- What follows white space. -/
def skip (cs : List Char) : List Char := cs.dropWhile isSpace

/-- What a letter stands for behind a backslash. -/
def shorthands : List (Char × Char) :=
  [('"', '"'), ('\\', '\\'), ('/', '/'), ('b', '\x08'), ('f', '\x0c'), ('n', '\n'), ('r', '\r'),
    ('t', '\t')]

/-- A character behind a backslash, by a letter or by its number. -/
def escaped? : List Char → Option (Char × List Char)
  | 'u' :: x :: y :: z :: w :: cs =>
    let number := hexValue [x, y, z, w]
    if [x, y, z, w].all Source.isHexDigit ∧ number.isValidChar then some (.ofNat number, cs)
    else none
  | e :: cs => (shorthands.lookup e).map (·, cs)
  | [] => none

/-- A character of a string.  Control characters are not allowed to stand for themselves. -/
def char? : List Char → Option (Char × List Char)
  | '\\' :: cs => escaped? cs
  | c :: cs => if c = '"' ∨ c.toNat < 32 then none else some (c, cs)
  | [] => none

/-- One of the three words. -/
def word? : List Char → Option (Json × List Char)
  | 'n' :: 'u' :: 'l' :: 'l' :: cs => some (null, cs)
  | 't' :: 'r' :: 'u' :: 'e' :: cs => some (bool true, cs)
  | 'f' :: 'a' :: 'l' :: 's' :: 'e' :: cs => some (bool false, cs)
  | _ => none

/-- A number without leading zeros, or a word. -/
def scalar? (cs : List Char) : Option (Json × List Char) :=
  let digits := cs.takeWhile Char.isDigit
  let number := Nat.ofDigitChars 10 digits 0
  if digits = Nat.toDigits 10 number then some (nat number, cs.dropWhile Char.isDigit)
  else word? cs

/-- Values and their parts. -/
inductive Phrase where
  /-- What is left of a string, with its closing quote. -/
  | chars (s : List Char)
  | value (j : Json)
  /-- What is left of a list after one of its elements, with its closing bracket. -/
  | items (items : List Json)
  | member (m : String × Json)
  /-- What is left of an object after one of its members, with its closing brace. -/
  | members (members : List (String × Json))

/-- A text begins with a phrase, and the rest follows. -/
inductive Reads : List Char → Phrase → List Char → Prop where
  | close {rest : List Char} : Reads ('"' :: rest) (.chars []) rest
  | char {c : Char} {cs cs' rest s : List Char} (h : char? cs = some (c, cs'))
    (more : Reads cs' (.chars s) rest) : Reads cs (.chars (c :: s)) rest
  | scalar {cs rest : List Char} {j : Json} (h : scalar? (skip cs) = some (j, rest)) :
    Reads cs (.value j) rest
  | str {cs cs' rest : List Char} {s : String} (h : skip cs = '"' :: cs')
    (more : Reads cs' (.chars s.toList) rest) : Reads cs (.value (.str s)) rest
  | arrNil {cs cs' rest : List Char} (h : skip cs = '[' :: cs') (hend : skip cs' = ']' :: rest) :
    Reads cs (.value (.arr [])) rest
  | arrCons {cs cs₁ cs₂ rest : List Char} {j : Json} {js : List Json} (h : skip cs = '[' :: cs₁)
    (first : Reads cs₁ (.value j) cs₂) (more : Reads cs₂ (.items js) rest) :
    Reads cs (.value (.arr (j :: js))) rest
  | objNil {cs cs' rest : List Char} (h : skip cs = '\x7b' :: cs')
    (hend : skip cs' = '\x7d' :: rest) : Reads cs (.value (.obj [])) rest
  | objCons {cs cs₁ cs₂ rest : List Char} {m : String × Json} {ms : List (String × Json)}
    (h : skip cs = '\x7b' :: cs₁) (first : Reads cs₁ (.member m) cs₂)
    (more : Reads cs₂ (.members ms) rest) : Reads cs (.value (.obj (m :: ms))) rest
  | itemsNil {cs rest : List Char} (h : skip cs = ']' :: rest) : Reads cs (.items []) rest
  | itemsCons {cs cs₁ cs₂ rest : List Char} {j : Json} {js : List Json} (h : skip cs = ',' :: cs₁)
    (next : Reads cs₁ (.value j) cs₂) (more : Reads cs₂ (.items js) rest) :
    Reads cs (.items (j :: js)) rest
  | member {cs cs₁ cs₂ cs₃ rest : List Char} {m : String × Json} (h : skip cs = '"' :: cs₁)
    (key : Reads cs₁ (.chars m.1.toList) cs₂) (hcolon : skip cs₂ = ':' :: cs₃)
    (value : Reads cs₃ (.value m.2) rest) : Reads cs (.member m) rest
  | membersNil {cs rest : List Char} (h : skip cs = '\x7d' :: rest) : Reads cs (.members []) rest
  | membersCons {cs cs₁ cs₂ rest : List Char} {m : String × Json} {ms : List (String × Json)}
    (h : skip cs = ',' :: cs₁) (next : Reads cs₁ (.member m) cs₂)
    (more : Reads cs₂ (.members ms) rest) : Reads cs (.members (m :: ms)) rest

/-- A text is JSON for a value. -/
def Spells (text : String) (j : Json) : Prop :=
  ∃ rest, Reads text.toList (.value j) rest ∧ skip rest = []

/-! ## A text is read in one way -/

theorem scalar?_cons (h : c.isDigit = false) : scalar? (c :: cs) = word? (c :: cs) := by
  simp [scalar?, h]

theorem scalar?_eq_none (h : c ∈ ['"', '[', ']', '\x7b', '\x7d', ',']) :
    scalar? (c :: cs) = none := by
  simp only [List.mem_cons, List.not_mem_nil, or_false] at h
  rcases h with rfl | rfl | rfl | rfl | rfl | rfl <;> exact scalar?_cons rfl

/-- What closes a list begins no value. -/
theorem not_reads_value {j : Json} (h : skip cs = ']' :: cs') : ¬Reads cs (.value j) rest := by
  intro hreads
  cases hreads with
  | scalar hscalar => simp [h, scalar?_eq_none] at hscalar
  | str h' | arrNil h' | arrCons h' | objNil h' | objCons h' => simp [h] at h'

/-- What closes an object begins no member. -/
theorem not_reads_member {m : String × Json} (h : skip cs = '\x7d' :: cs') :
    ¬Reads cs (.member m) rest := by
  intro hreads
  cases hreads with
  | member h' => simp [h] at h'

/-- Two phrases for the same part of a value. -/
def Phrase.Alike : Phrase → Phrase → Prop
  | chars _, chars _ | value _, value _ | items _, items _ | member _, member _
  | members _, members _ => True
  | _, _ => False

/-- **A text is read in one way.**  Its next token tells the rule. -/
theorem Reads.unique {p : Phrase} (h : Reads cs p rest) : ∀ {p' : Phrase} {rest' : List Char},
    Reads cs p' rest' → p.Alike p' → p' = p ∧ rest' = rest := by
  induction h with
  | close | char =>
    intro p' rest' h' halike
    cases h' <;> first | exact False.elim halike | grind [Phrase.Alike, char?]
  | scalar | str =>
    intro p' rest' h' halike
    cases h' <;> first
      | exact False.elim halike
      | grind [Phrase.Alike, scalar?_eq_none, String.toList_inj]
  | arrNil | arrCons | objNil | objCons =>
    -- An empty list or object goes on with its closing token.
    intro p' rest' h' halike
    cases h' <;> first
      | exact False.elim halike
      | grind [Phrase.Alike, scalar?_eq_none, not_reads_value, not_reads_member]
  | itemsNil | itemsCons | member | membersNil | membersCons =>
    intro p' rest' h' halike
    cases h' <;> first | exact False.elim halike | grind [Phrase.Alike, String.toList_inj]

/-- A text spells one value. -/
theorem Spells.unique {text : String} {j' : Json} (h : Spells text j) (h' : Spells text j') :
    j' = j := by
  obtain ⟨rest, h, -⟩ := h
  obtain ⟨rest', h', -⟩ := h'
  cases (h.unique h' trivial).1
  rfl

/-! ## The text of a value spells it -/

theorem skip_cons (h : isSpace c = false) : skip (c :: cs) = c :: cs := by simp [skip, h]

theorem skip_newline (level : Nat) : skip ((newline level).toList ++ cs) = skip cs := by
  have hspace : ∀ c ∈ (newline level).toList, isSpace c = true := by
    simp +decide [newline]
  rw [skip, skip, List.dropWhile_append_of_pos hspace]

/-- Escaped characters are read back. -/
theorem char?_escape (c : Char) : char? (escape c ++ cs) = some (c, cs) := by
  unfold escape
  split_ifs with hquote hbackslash hb hf hn hr ht hcontrol
  case pos => rw [hquote]; rfl
  case pos => rw [hbackslash]; rfl
  case pos => rw [hb]; rfl
  case pos => rw [hf]; rfl
  case pos => rw [hn]; rfl
  case pos => rw [hr]; rfl
  case pos => rw [ht]; rfl
  case pos =>
    have hdigit : ∀ n < 16, Source.isHexDigit (Nat.digitChar n) = true := by decide
    have hhigh : c.toNat / 16 < 16 := by omega
    have hlow : c.toNat % 16 < 16 := by omega
    have hvalue : hexValue ['0', '0', Nat.digitChar (c.toNat / 16), Nat.digitChar (c.toNat % 16)] =
        c.toNat := by
      have hzero : hexDigit '0' = 0 := rfl
      simp only [hexValue, List.foldl_cons, List.foldl_nil, hzero, hexDigit_digitChar _ hhigh,
        hexDigit_digitChar _ hlow]
      omega
    have hvalid : c.toNat.isValidChar := c.valid
    simp +decide [char?, escaped?, hvalue, hvalid, hdigit _ hhigh, hdigit _ hlow]
  case neg => simp [char?, *]

theorem reads_chars (s : List Char) : Reads (s.flatMap escape ++ '"' :: rest) (.chars s) rest := by
  induction s with
  | nil => exact .close
  | cons c s ih =>
    rw [flatMap_cons, List.append_assoc]
    exact .char (char?_escape c) ih

/-- Numbers are read back. -/
theorem scalar?_repr (n : Nat) (h : Reader.Stops Char.isDigit rest) :
    scalar? (n.repr.toList ++ rest) = some (nat n, rest) := by
  obtain ⟨htake, hdrop⟩ := Reader.span_repr n h
  rw [scalar?, htake, hdrop, Nat.ofDigitChars_ten_toDigits]
  exact if_pos rfl

/-- The text of a value is read back at every level, whatever follows it but digits. -/
def Readable (j : Json) : Prop := ∀ (level : Nat) {cs rest : List Char},
  skip cs = skip ((textAt level j).toList ++ rest) → Reader.Stops Char.isDigit rest →
    Reads cs (.value j) rest

theorem skip_quote (s : String) : skip ((quote s).toList ++ rest) =
    '"' :: (s.toList.flatMap escape ++ '"' :: rest) := by
  have htext : (quote s).toList ++ rest = '"' :: (s.toList.flatMap escape ++ '"' :: rest) := by
    simp [quote]
  rw [htext, skip_cons rfl]

/-- Strings are readable. -/
theorem readable_str (s : String) : Readable (str s) := by
  intro level cs rest hcs hrest
  rw [textAt, skip_quote] at hcs
  exact .str hcs (reads_chars s.toList)

theorem stops_itemsAt (level level' : Nat) (items : List Json) : Reader.Stops Char.isDigit
    ((itemsAt level items).toList ++ ((newline level').toList ++ rest)) := by
  cases items <;> simp [itemsAt, newline, Reader.Stops]

theorem reads_itemsAt {level level' : Nat} {items : List Json} (h : ∀ item ∈ items, Readable item) :
    Reads ((itemsAt level items).toList ++ ((newline level').toList ++ ']' :: rest))
      (.items items) rest := by
  induction items with
  | nil =>
    rw [itemsAt]
    exact .itemsNil ((skip_newline level').trans (skip_cons rfl))
  | cons item items ih =>
    obtain ⟨hitem, hitems⟩ := forall_mem_cons.1 h
    have hreads := Reads.itemsCons (skip_cons rfl)
      (hitem level (skip_newline level) (stops_itemsAt level level' items)) (ih hitems)
    simpa [itemsAt] using hreads

/-- Arrays are readable. -/
theorem readable_arr {items : List Json} (h : ∀ item ∈ items, Readable item) :
    Readable (arr items) := by
  intro level cs rest hcs hrest
  cases items with
  | nil =>
    have htext : "[]".toList = ['[', ']'] := String.toList_ofList
    rw [textAt, htext] at hcs
    exact .arrNil hcs (skip_cons rfl)
  | cons item items =>
    obtain ⟨hitem, hitems⟩ := forall_mem_cons.1 h
    refine .arrCons (hcs.trans ?_)
      (hitem (level + 1) (skip_newline (level + 1)) (stops_itemsAt (level + 1) level items))
      (reads_itemsAt hitems)
    simpa [textAt] using skip_cons rfl

theorem stops_membersAt (level level' : Nat) (members : List (String × Json)) :
    Reader.Stops Char.isDigit
      ((membersAt level members).toList ++ ((newline level').toList ++ rest)) := by
  cases members <;> simp [membersAt, newline, Reader.Stops]

theorem Readable.member {m : String × Json} (h : Readable m.2) (level : Nat)
    (hcs : skip cs = skip ((quote m.1).toList ++ ':' :: ' ' :: ((textAt level m.2).toList ++ rest)))
    (hrest : Reader.Stops Char.isDigit rest) : Reads cs (.member m) rest :=
  .member (hcs.trans (skip_quote m.1)) (reads_chars m.1.toList) (skip_cons rfl) (h level rfl hrest)

theorem reads_membersAt {level level' : Nat} {members : List (String × Json)}
    (h : ∀ m ∈ members, Readable m.2) :
    Reads ((membersAt level members).toList ++ ((newline level').toList ++ '\x7d' :: rest))
      (.members members) rest := by
  induction members with
  | nil =>
    rw [membersAt]
    exact .membersNil ((skip_newline level').trans (skip_cons rfl))
  | cons m members ih =>
    obtain ⟨hm, hmembers⟩ := forall_mem_cons.1 h
    have hreads := Reads.membersCons (skip_cons rfl)
      (hm.member level (skip_newline level) (stops_membersAt level level' members)) (ih hmembers)
    simpa [membersAt] using hreads

/-- Objects are readable. -/
theorem readable_obj {members : List (String × Json)} (h : ∀ m ∈ members, Readable m.2) :
    Readable (obj members) := by
  intro level cs rest hcs hrest
  cases members with
  | nil =>
    have htext : "\x7b\x7d".toList = ['\x7b', '\x7d'] := String.toList_ofList
    rw [textAt, htext] at hcs
    exact .objNil hcs (skip_cons rfl)
  | cons m members =>
    obtain ⟨hm, hmembers⟩ := forall_mem_cons.1 h
    refine .objCons (hcs.trans ?_)
      (hm.member (level + 1) (skip_newline (level + 1)) (stops_membersAt (level + 1) level members))
      (reads_membersAt hmembers)
    simpa [textAt] using skip_cons rfl

theorem readable_nat (n : Nat) : Readable (nat n) := by
  intro level cs rest hcs hrest
  have hspace {c : Char} (hc : c.isDigit = true) : isSpace c = false := by
    simp only [isSpace, Bool.or_eq_false_iff, beq_eq_false_iff_ne]
    refine ⟨⟨⟨?_, ?_⟩, ?_⟩, ?_⟩ <;>
    · rintro rfl
      cases hc
  have hskip : skip (n.repr.toList ++ rest) = n.repr.toList ++ rest := by
    obtain ⟨c, ds, hds⟩ := exists_cons_of_ne_nil (Nat.toDigits_ne_nil (n := n) (b := 10))
    rw [Nat.toList_repr, hds, cons_append, skip_cons]
    exact hspace (isDigit_toDigits (n := n) (hds ▸ mem_cons_self))
  exact .scalar (by rw [hcs, textAt, toString, instToStringNat, hskip, scalar?_repr n hrest])

/-- Every value is readable. -/
theorem readable (j : Json) : Readable j := by
  cases j with
  | null =>
    intro level cs rest hcs hrest
    have htext : "null".toList = ['n', 'u', 'l', 'l'] := String.toList_ofList
    exact .scalar (by rw [hcs, textAt, htext]; exact scalar?_cons rfl)
  | bool b =>
    intro level cs rest hcs hrest
    have htrue : "true".toList = ['t', 'r', 'u', 'e'] := String.toList_ofList
    have hfalse : "false".toList = ['f', 'a', 'l', 's', 'e'] := String.toList_ofList
    refine .scalar ?_
    cases b
    · rw [hcs, textAt, if_neg (by decide), hfalse]; exact scalar?_cons rfl
    · rw [hcs, textAt, if_pos rfl, htrue]; exact scalar?_cons rfl
  | nat n => exact readable_nat n
  | str s => exact readable_str s
  | arr items => exact readable_arr fun item hitem => readable item
  | obj members => exact readable_obj fun m hm => readable m.2
termination_by sizeOf j
decreasing_by
  · have := sizeOf_lt_of_mem hitem
    simp only [arr.sizeOf_spec]
    omega
  · have := sizeOf_lt_of_mem hm
    have hm : sizeOf m = 1 + sizeOf m.1 + sizeOf m.2 := rfl
    simp only [obj.sizeOf_spec]
    omega

/-- **The indented text of a value spells that value.** -/
theorem spells_pretty (j : Json) : Spells j.pretty j :=
  ⟨[], readable j 0 (by rw [append_nil]; rfl) (by simp [Reader.Stops]), rfl⟩

end WgslKernel.Json
