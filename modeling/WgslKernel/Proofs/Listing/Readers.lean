import Mathlib.Data.List.TakeWhile
import WgslKernel.Proofs.Listing.Layout

/-!
# Readers

A reader takes a value off the front of a text.  For each of them one lemma says that it reads what
was written, provided that what follows does not go on in the same manner (`Stops`).
-/

namespace WgslKernel

open List

/-- Takes a value off the front of a text, or fails. -/
abbrev Reader := StateT (List Char) Option

namespace Reader

/-- A fixed text. -/
def skip (text : String) : Reader Unit := fun cs =>
  if text.toList.isPrefixOf cs then some ((), cs.drop text.toList.length) else none

/-- Skips a text if it is there. -/
def flag (text : String) : Reader Bool := fun cs =>
  some (if text.toList.isPrefixOf cs then (true, cs.drop text.toList.length) else (false, cs))

/-- All up to the next blank. -/
def word : Reader String := fun cs =>
  some (String.ofList (cs.takeWhile (· != ' ')), cs.dropWhile (· != ' '))

/-- A number, of as many digits as there are. -/
def number : Reader Nat := fun cs =>
  some (Nat.ofDigitChars 10 (cs.takeWhile Char.isDigit) 0, cs.dropWhile Char.isDigit)

/-- One of some named things. -/
def named {α : Type} (all : List α) (name : α → String) : Reader α := do
  let w ← word
  all.find? (name · == w)

/-- The number of a statement. -/
def ref : Reader StmtId := do
  skip "%"
  number

/-- The numbers after the signs `%`. -/
def refsIn : List Char → List StmtId
  | [] => []
  | c :: cs =>
    if c = '%' then Nat.ofDigitChars 10 (cs.takeWhile Char.isDigit) 0 :: refsIn cs else refsIn cs

/-- A list of references, up to its bracket. -/
def refs : Reader (List StmtId) := fun cs =>
  some (refsIn (cs.takeWhile (· != ']')), (cs.dropWhile (· != ']')).drop 1)

/-- A list of one reference. -/
def single : Reader StmtId := do
  let ids ← refs
  ids.head?

/-- Four statements. -/
def quad : Reader Quad := do
  let ids ← refs
  Quad.ofList? ids

/-- A primitive type. -/
def prim : Reader Prim := named [.i32, .f32, .i64, .f64] Prim.name

/-! ## What readers read -/

variable {rest : List Char}

/-- A text that is over, or goes on with a character without `p`. -/
def Stops (p : Char → Bool) (rest : List Char) : Prop := ∀ c ∈ rest.head?, p c = false

theorem span_append {p : Char → Bool} {cs : List Char} (h : ∀ c ∈ cs, p c = true)
    (hrest : Stops p rest) :
    (cs ++ rest).takeWhile p = cs ∧ (cs ++ rest).dropWhile p = rest := by
  rw [takeWhile_append_of_pos h, dropWhile_append_of_pos h]
  cases rest with
  | nil => simp
  | cons c rest =>
    have hc : p c = false := hrest c rfl
    simp [hc]

/-- A text is divided in one way into characters with `p` and a rest that stops them. -/
theorem append_inj_of_stops {p : Char → Bool} {cs cs' rest' : List Char} (h : ∀ c ∈ cs, p c = true)
    (h' : ∀ c ∈ cs', p c = true) (hrest : Stops p rest) (hrest' : Stops p rest')
    (heq : cs ++ rest = cs' ++ rest') : cs = cs' ∧ rest = rest' := by
  obtain ⟨htake, hdrop⟩ := span_append h hrest
  obtain ⟨htake', hdrop'⟩ := span_append h' hrest'
  rw [heq] at htake hdrop
  exact ⟨htake.symm.trans htake', hdrop.symm.trans hdrop'⟩

theorem run_bind {α β : Type} {r : Reader α} {f : α → Reader β} {cs : List Char} {a : α}
    (h : r.run cs = some (a, rest)) : (r >>= f).run cs = (f a).run rest := by
  rw [StateT.run_bind, h]
  rfl

theorem run_skip (text : String) : (skip text).run (text.toList ++ rest) = some ((), rest) := by
  simp [skip, StateT.run]

theorem run_flag (text : String) : (flag text).run (text.toList ++ rest) = some (true, rest) := by
  simp [flag, StateT.run]

theorem run_word {w : String} (hw : ' ' ∉ w.toList) (hrest : Stops (· != ' ') rest) :
    word.run (w.toList ++ rest) = some (w, rest) := by
  have hall : ∀ c ∈ w.toList, (c != ' ') = true := fun c hc => bne_iff_ne.2 fun heq => hw (heq ▸ hc)
  obtain ⟨htake, hdrop⟩ := span_append hall hrest
  simp [word, StateT.run, htake, hdrop]

theorem span_repr (n : Nat) (hrest : Stops Char.isDigit rest) :
    (n.repr.toList ++ rest).takeWhile Char.isDigit = Nat.toDigits 10 n ∧
      (n.repr.toList ++ rest).dropWhile Char.isDigit = rest := by
  rw [Nat.toList_repr]
  exact span_append (fun _ => isDigit_toDigits) hrest

/-- Numbers read back. -/
theorem run_number (n : Nat) (hrest : Stops Char.isDigit rest) :
    number.run (n.repr.toList ++ rest) = some (n, rest) := by
  obtain ⟨htake, hdrop⟩ := span_repr n hrest
  rw [StateT.run, number, htake, hdrop, Nat.ofDigitChars_ten_toDigits]

/-- Names of a list read back. -/
theorem run_named {α : Type} {all : List α} {name : α → String} {a : α}
    (hfind : all.find? (name · == name a) = some a) (hname : ' ' ∉ (name a).toList)
    (hrest : Stops (· != ' ') rest) :
    (named all name).run ((name a).toList ++ rest) = some (a, rest) := by
  rw [named, run_bind (run_word hname hrest), hfind]
  rfl

theorem run_prim (ty : Prim) (hrest : Stops (· != ' ') rest) :
    prim.run (ty.name.toList ++ rest) = some (ty, rest) := by
  refine run_named ?_ ?_ hrest
  · cases ty <;> rfl
  · cases ty <;> decide

theorem toList_stmtRef (i : StmtId) : (stmtRef i).toList = "%".toList ++ i.repr.toList :=
  String.toList_append

/-- References read back. -/
theorem run_ref (i : StmtId) (hrest : Stops Char.isDigit rest) :
    ref.run ((stmtRef i).toList ++ rest) = some (i, rest) := by
  rw [toList_stmtRef, List.append_assoc, ref, run_bind (run_skip "%"), run_number i hrest]

/-! ## References in brackets -/

theorem refsIn_append {cs : List Char} (h : '%' ∉ cs) : refsIn (cs ++ rest) = refsIn rest := by
  induction cs with
  | nil => rfl
  | cons c cs ih =>
    rw [mem_cons, not_or] at h
    rw [cons_append, refsIn, if_neg (Ne.symm h.1), ih h.2]

theorem refsIn_stmtRef (i : StmtId) (hrest : Stops Char.isDigit rest) :
    refsIn ((stmtRef i).toList ++ rest) = i :: refsIn rest := by
  have hsign : "%".toList = ['%'] := String.toList_ofList
  have hdigits : '%' ∉ i.repr.toList := not_mem_of_isNumeric (isNumeric_repr i) (by decide)
  rw [toList_stmtRef, hsign, List.append_assoc, cons_append, nil_append, refsIn,
    if_pos rfl, (span_repr i hrest).1, Nat.ofDigitChars_ten_toDigits, refsIn_append hdigits]

theorem refsIn_intercalate (ids : List StmtId) :
    refsIn (", ".intercalate (ids.map stmtRef)).toList = ids := by
  have hcomma : ", ".toList = [',', ' '] := String.toList_ofList
  induction ids with
  | nil => rfl
  | cons i ids ih =>
    cases ids with
    | nil =>
      have hone : refsIn ((stmtRef i).toList ++ []) = [i] := refsIn_stmtRef i (by simp [Stops])
      rwa [append_nil] at hone
    | cons j ids =>
      rw [map_cons, map_cons, String.intercalate_cons_cons, ← map_cons,
        String.append_assoc, String.toList_append, refsIn_stmtRef, String.toList_append, hcomma,
        refsIn_append (by decide), ih]
      rw [String.toList_append, hcomma]
      simp [Stops]

/-- Lists of references read back. -/
theorem run_refs (ids : List StmtId) :
    refs.run ((stmtRefs ids).toList ++ rest) = some (ids, rest) := by
  have hopen : "[".toList = ['['] := String.toList_ofList
  have hclose : "]".toList = [']'] := String.toList_ofList
  have hinner : ∀ c ∈ '[' :: (", ".intercalate (ids.map stmtRef)).toList, (c != ']') = true := by
    intro c hc
    rw [bne_iff_ne]
    rintro rfl
    rw [mem_cons] at hc
    refine hc.elim (by decide) (notMem_intercalate (by decide) fun text htext => ?_)
    obtain ⟨i, -, rfl⟩ := mem_map.1 htext
    rw [toList_stmtRef, mem_append]
    exact not_or.2 ⟨by decide, not_mem_of_isNumeric (isNumeric_repr i) (by decide)⟩
  have htext : (stmtRefs ids).toList ++ rest =
      '[' :: (", ".intercalate (ids.map stmtRef)).toList ++ ']' :: rest := by
    rw [stmtRefs, String.toList_append, String.toList_append, hopen, hclose]
    simp
  have hstops : Stops (· != ']') (']' :: rest) := by simp [Stops]
  obtain ⟨htake, hdrop⟩ := span_append hinner hstops
  rw [StateT.run, refs, htext, htake, hdrop, drop_one, tail_cons, refsIn,
    if_neg (by decide), refsIn_intercalate]

theorem stops_refs (ids : List StmtId) (cs : List Char) :
    Stops Char.isDigit ((stmtRefs ids).toList ++ cs) := by
  simp [stmtRefs, Stops]

theorem run_single (i : StmtId) : single.run ((stmtRefs [i]).toList ++ rest) = some (i, rest) := by
  rw [single, run_bind (run_refs [i])]
  rfl

theorem run_quad (q : Quad) : quad.run ((stmtRefs q.toList).toList ++ rest) = some (q, rest) := by
  rw [quad, run_bind (run_refs q.toList)]
  rfl

end Reader

end WgslKernel
