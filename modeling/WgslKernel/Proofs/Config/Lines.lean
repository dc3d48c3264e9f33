import Mathlib.Data.List.Basic
import Mathlib.Data.List.TakeWhile
import WgslKernel.Config

/-!
# Lines of a configuration file

`ConfigLine.Written` says in which ways a line can be written, and the reader finds back what was
written.  A header is cut out of its line by byte offsets, which lie between characters, in order.
-/

namespace WgslKernel

open List

/-! ## White space at the ends -/

namespace Text

variable {a b cs : List Char} {c : Char}

/-- White space and nothing else. -/
def Blank (cs : List Char) : Prop := ∀ c ∈ cs, isBlank c = true

/-- No white space at either end. -/
structure Tight (cs : List Char) : Prop where
  first : ∀ c ∈ cs.head?, isBlank c = false
  last : ∀ c ∈ cs.getLast?, isBlank c = false

/-- It is decided by looking. -/
instance : Decidable (Blank cs) := List.decidableBAll _ cs

/-- It is decided at both ends. -/
instance : Decidable (Tight cs) :=
  decidable_of_iff (cs.head?.all (!isBlank ·) ∧ cs.getLast?.all (!isBlank ·)) <| by
    simp only [Option.all_eq_true, Bool.not_eq_true']
    exact ⟨fun h => ⟨h.1, h.2⟩, fun h => ⟨h.first, h.last⟩⟩

theorem trimLeft_append (h : Blank a) : trimLeft (a ++ cs) = trimLeft cs :=
  dropWhile_append_of_pos h

theorem trimRight_append (h : Blank b) : trimRight (cs ++ b) = trimRight cs := by
  rw [trimRight, reverse_append,
    dropWhile_append_of_pos fun c hc => h c (mem_reverse.1 hc), trimRight]

theorem trimLeft_eq_nil (h : Blank a) : trimLeft a = [] := dropWhile_eq_nil_iff.2 h

theorem trimRight_eq_nil (h : Blank a) : trimRight a = [] := by
  rw [← nil_append a, trimRight_append h]
  rfl

theorem trimLeft_eq_self (h : ∀ c ∈ cs.head?, isBlank c = false) : trimLeft cs = cs := by
  cases cs with
  | nil => rfl
  | cons c cs => simp [trimLeft, h c rfl]

theorem trimRight_eq_self (h : ∀ c ∈ cs.getLast?, isBlank c = false) : trimRight cs = cs := by
  have hhead : ∀ c ∈ cs.reverse.head?, isBlank c = false := by rwa [List.head?_reverse]
  rw [trimRight, ← trimLeft, trimLeft_eq_self hhead, reverse_reverse]

/-- A character that is not white space keeps what stands on its other side. -/
theorem trim_around (h : isBlank c = false) :
    trim (a ++ c :: b) = trimLeft a ++ c :: trimRight b := by
  have hleft : trimLeft (a ++ c :: b) = trimLeft a ++ c :: b := by
    rw [trimLeft, dropWhile_append]
    split
    · rename_i hnil
      rw [trimLeft, isEmpty_iff.1 hnil, dropWhile_cons, h]
      rfl
    · rfl
  rw [trim, hleft, trimRight, trimRight, reverse_append, reverse_cons, List.append_assoc,
    dropWhile_append]
  split
  · rename_i hnil
    simp [isEmpty_iff.1 hnil, h]
  · simp

/-- **White space around a text vanishes**, also when the text is trimmed on one side first. -/
theorem trim_pad (ha : Blank a) (h : Tight cs) (hb : Blank b) :
    trim (a ++ cs ++ b) = cs ∧ trim (trimLeft (a ++ cs ++ b)) = cs ∧
      trim (trimRight (a ++ cs ++ b)) = cs := by
  rw [List.append_assoc, trimLeft_append ha, ← List.append_assoc, trimRight_append hb]
  cases cs with
  | nil =>
    rw [append_nil, nil_append, trim, trimLeft_append ha, trimLeft_eq_nil hb, trimRight_eq_nil ha]
    exact ⟨rfl, rfl, rfl⟩
  | cons d cs =>
    have hleft {b : List Char} : trimLeft ((d :: cs) ++ b) = (d :: cs) ++ b :=
      trimLeft_eq_self (by simpa using h.first)
    have hright : trimRight (a ++ d :: cs) = a ++ d :: cs :=
      trimRight_eq_self fun c hc => h.last c (by simpa using hc)
    rw [hright, hleft, trim, trim, trim, List.append_assoc, trimLeft_append ha, trimLeft_append ha,
      hleft, trimRight_append hb, trimLeft_eq_self h.first, trimRight_eq_self h.last]
    exact ⟨rfl, rfl, rfl⟩

/-- A line is cut at its first separator. -/
theorem cut?_append {sep : Char} (h : sep ∉ a) : cut? sep (a ++ sep :: b) = some (a, b) := by
  induction a with
  | nil => simp [cut?]
  | cons c a ih =>
    rw [mem_cons, not_or] at h
    simp [cut?, Ne.symm h.1, ih h.2]

/-! ## Splitting at line ends -/

theorem splitAt_of_notMem {sep : Char} (h : sep ∉ a) : splitAt sep a = [a] := by
  induction a with
  | nil => rfl
  | cons c a ih =>
    rw [mem_cons, not_or] at h
    simp [splitAt, Ne.symm h.1, ih h.2]

theorem splitAt_append {sep : Char} (h : sep ∉ a) :
    splitAt sep (a ++ sep :: b) = a :: splitAt sep b := by
  induction a with
  | nil => simp [splitAt]
  | cons c a ih =>
    rw [mem_cons, not_or] at h
    simp [splitAt, Ne.symm h.1, ih h.2]

/-- Lines are found back in the text that they make up. -/
theorem lines_intercalate {line : List Char} {rest : List (List Char)}
    (h : ∀ l ∈ line :: rest, '\n' ∉ l) :
    lines (['\n'].intercalate (line :: rest)) = line :: rest := by
  induction rest generalizing line with
  | nil => simpa [lines] using splitAt_of_notMem (h line mem_cons_self)
  | cons next rest ih =>
    obtain ⟨hline, hrest⟩ := forall_mem_cons.1 h
    rw [intercalate_cons_cons, List.append_assoc, singleton_append, lines,
      splitAt_append hline, ← lines, ih hrest]

/-- `part` stands between two byte offsets of a text, neither of them inside a character. -/
def IsSlice (text : String) (start stop : Nat) (part : String) : Prop :=
  ∃ front back, text = front ++ part ++ back ∧ front.utf8ByteSize = start ∧
    (front ++ part).utf8ByteSize = stop

end Text

/-! ## How lines are written -/

namespace ConfigLine

open Text

/-- The texts of a line.  A line between brackets is a header, even with an equals sign in it. -/
inductive Written : ConfigLine → List Char → Prop where
  | blank {a : List Char} (ha : Blank a) : Written .skip a
  | comment {a : List Char} (rest : List Char) (ha : Blank a) : Written .skip (a ++ '#' :: rest)
  | header {a b inner c d : List Char} (ha : Blank a) (hb : Blank b) (hinner : Tight inner)
    (hc : Blank c) (hd : Blank d) :
    Written (.header (String.ofList inner)) (a ++ '[' :: (b ++ inner ++ c ++ ']' :: d))
  | assign {a key b c value d : List Char} (ha : Blank a) (hkey : Tight key) (hb : Blank b)
    (hc : Blank c) (hvalue : Tight value) (hd : Blank d) (hequals : '=' ∉ key)
    (hcomment : key.head? ≠ some '#')
    (hheader : ¬(key.head? = some '[' ∧ value.getLast? = some ']')) :
    Written (.assign (String.ofList key) (String.ofList value))
      (a ++ key ++ b ++ '=' :: (c ++ value ++ d))

variable {a b cs inner : List Char} {line : ConfigLine}

/-- A header is what stands in brackets. -/
theorem bracketed?_eq_some : bracketed? cs = some inner ↔ cs = '[' :: (inner ++ [']']) := by
  unfold bracketed?
  split
  · split
    · rename_i hlast
      obtain ⟨front, rfl⟩ := List.getLast?_eq_some_iff.1 hlast
      simp
    · rename_i hlast
      constructor <;> intro h
      · cases h
      · cases h
        simp at hlast
  · rename_i hne
    constructor <;> intro h
    · cases h
    · exact absurd h (hne _)

theorem ofTrimmed_bracketed : ofTrimmed ('[' :: (inner ++ [']'])) =
    .header (String.ofList (trim inner)) := by
  have hinner := bracketed?_eq_some.2 (rfl : '[' :: (inner ++ [']']) = _)
  simp [ofTrimmed, hinner]

/-- **The byte offsets of a header are good.**  They leave out one bracket on each side. -/
theorem exists_slice (hopen : cs.head? = some '[') (hclose : cs.getLast? = some ']') :
    ∃ part, IsSlice (String.ofList cs) 1 ((String.ofList cs).utf8ByteSize - 1) part ∧
      ofTrimmed cs = .header (String.ofList (trim part.toList)) := by
  obtain ⟨rest, rfl⟩ := List.head?_eq_some_iff.1 hopen
  obtain ⟨inner, rfl⟩ : ∃ inner, rest = inner ++ [']'] := by
    cases rest with
    | nil => cases hclose
    | cons e rest => exact List.getLast?_eq_some_iff.1 (by simpa using hclose)
  refine ⟨String.ofList inner, ⟨"[", "]", ?_, rfl, ?_⟩, ?_⟩
  · simp [← String.toList_inj]
  · have hone : "]".utf8ByteSize = 1 := rfl
    have htext : String.ofList ('[' :: (inner ++ [']'])) = "[" ++ String.ofList inner ++ "]" := by
      simp [← String.toList_inj]
    rw [htext, String.utf8ByteSize_append (t := "]"), hone, Nat.add_sub_cancel]
  · rw [String.toList_ofList, ofTrimmed_bracketed]

theorem ofTrimmed_equals (hequals : '=' ∉ a) (hcomment : a.head? ≠ some '#')
    (hheader : ¬(a.head? = some '[' ∧ b.getLast? = some ']')) :
    ofTrimmed (a ++ '=' :: b) = .assign (String.ofList (trim a)) (String.ofList (trim b)) := by
  have hnone : bracketed? (a ++ '=' :: b) = none := by
    refine Option.eq_none_iff_forall_ne_some.2 fun inner h => hheader ?_
    rw [bracketed?_eq_some] at h
    have hhead := congrArg List.head? h
    have hlast : (a ++ '=' :: b).getLast? = some ']' := by
      rw [h, ← cons_append, List.getLast?_concat]
    constructor
    · cases a with
      | nil => cases hhead
      | cons e a => exact hhead
    · cases b with
      | nil => simp at hlast
      | cons e b =>
        rwa [List.getLast?_append_of_ne_nil a (by simp), List.getLast?_cons_cons] at hlast
  have hcut := cut?_append (b := b) hequals
  generalize hline : a ++ '=' :: b = whole at hnone hcut
  unfold ofTrimmed
  split
  · simp at hline
  · cases a with
    | nil => cases hline
    | cons e a =>
      cases hline
      exact absurd rfl hcomment
  · rw [hnone]
    simp [hcut]

/-- **The reader sees what was written.** -/
theorem Written.ofLine_eq (h : Written line cs) : ofLine cs = line := by
  cases h with
  | blank ha =>
    rw [ofLine, trim, trimLeft_eq_nil ha]
    rfl
  | comment rest ha =>
    rw [ofLine, trim_around (by decide), trimLeft_eq_nil ha]
    rfl
  | @header a b inner c d ha hb hinner hc hd =>
    have hclose : trimRight (b ++ inner ++ c ++ ']' :: d) = b ++ inner ++ c ++ [']'] := by
      rw [← singleton_append, ← List.append_assoc, trimRight_append hd,
        trimRight_eq_self (by simp +decide)]
    rw [ofLine, trim_around (by decide), trimLeft_eq_nil ha, hclose, nil_append,
      ofTrimmed_bracketed, (trim_pad hb hinner hc).1]
  | @assign a key b c value d ha hkey hb hc hvalue hd hequals hcomment hheader =>
    have hfirst : (trimLeft (a ++ key ++ b)).head? = key.head? := by
      rw [List.append_assoc, trimLeft_append ha]
      cases key with
      | nil => rw [nil_append, trimLeft_eq_nil hb]
      | cons e key => rw [trimLeft_eq_self (by simpa using hkey.first)]; rfl
    have hlast : (trimRight (c ++ value ++ d)).getLast? = value.getLast? := by
      rw [trimRight_append hd]
      rcases eq_nil_or_concat value with rfl | ⟨value, e, rfl⟩
      · rw [append_nil, trimRight_eq_nil hc]
      · rw [trimRight_eq_self (by simpa using hvalue.last)]
        simp
    have hnotMem : '=' ∉ trimLeft (a ++ key ++ b) := by
      intro hmem
      have hmem := (dropWhile_sublist isBlank).mem hmem
      simp only [mem_append] at hmem
      rcases hmem with (hmem | hmem) | hmem
      · exact absurd (ha _ hmem) (by decide)
      · exact hequals hmem
      · exact absurd (hb _ hmem) (by decide)
    rw [ofLine, trim_around (by decide), ofTrimmed_equals hnotMem (by rwa [hfirst])
      (by rwa [hfirst, hlast]), (trim_pad ha hkey hb).2.1, (trim_pad hc hvalue hd).2.2]

end ConfigLine

end WgslKernel
