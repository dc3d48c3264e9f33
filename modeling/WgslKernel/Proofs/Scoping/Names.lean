import Mathlib.Data.List.TakeDrop
import WgslKernel.Shader.Basic

/-!
# The names of a shader

Names are told apart by their spelling.  Every name is letters, then possibly a number, then letters
again, so the three parts can be read off its text; different names differ in one of them.
-/

namespace WgslKernel

open List

/-! ## Names -/

/-- Anything that a shader has a name for. -/
inductive Name where
  | ident (n : Ident)
  /-- The structure that holds the words of a buffer. -/
  | wordsOf (r : Resource)
  /-- A function of the shader itself. -/
  | helper (f : Func)
  /-- The structure of the state of the random-number generator. -/
  | randStruct
  | inputStruct
  | outputStruct
  | entry
  deriving DecidableEq, Repr

/-- How a name is written. -/
def Name.text : Name → String
  | ident n => n.text
  | wordsOf r => s!"{r.name}_type"
  | helper f => f.name
  | randStruct => "RandState"
  | inputStruct => "StageInput"
  | outputStruct => "StageOutput"
  | entry => "main"

/-- Functions that a shader declares; all others are built in. -/
def Func.isHelper : Func → Bool
  | randU32 | randF32 => true
  | _ => false

/-- Categories with several members, which are numbered. -/
def ResourceKind.isNumbered : ResourceKind → Bool
  | root | rootAtomic | texture | storageTexture | sampler => true
  | globalTmps | globalTmpsAtomic | args | rets => false

/-- A resource has a number exactly if its category needs one. -/
def Resource.IsNumbered (r : Resource) : Prop := r.id.isSome = r.kind.isNumbered

/-- Names that a shader can have: resources numbered as they should be, functions not built in. -/
def Name.IsProper : Name → Prop
  | ident (.resource r) | wordsOf r => r.IsNumbered
  | helper f => f.isHelper = true
  | _ => True

/-! ## Spellings -/

/-- The parts of the text of a name. -/
structure Spelling where
  head : String
  number : Option Nat := none
  tail : String := ""
  deriving DecidableEq

namespace Spelling

/-- The parts one after another. -/
def text (s : Spelling) : String := s.head ++ s.number.elim "" toString ++ s.tail

/-- There is no digit in the text. -/
def hasNoDigit (text : String) : Bool := text.toList.all fun c => !c.isDigit

theorem isDigit_of_hasNoDigit {text : String} (h : hasNoDigit text = true) {c : Char}
    (hc : c ∈ text.toList) : c.isDigit = false := by
  simpa using all_eq_true.1 h c hc

theorem hasNoDigit_append (a b : String) :
    hasNoDigit (a ++ b) = (hasNoDigit a && hasNoDigit b) := by
  simp [hasNoDigit]

/-- The parts can be told apart: only the number has digits, and without it there is one part. -/
structure IsPlain (s : Spelling) : Prop where
  head : hasNoDigit s.head = true
  tail : hasNoDigit s.tail = true
  single : s.number = none → s.tail = ""

/-- The digits of the number. -/
def digits (s : Spelling) : List Char := s.number.elim [] (Nat.toDigits 10)

theorem toList_text (s : Spelling) :
    s.text.toList = s.head.toList ++ (s.digits ++ s.tail.toList) := by
  cases hn : s.number with
  | none => simp [text, digits, hn]
  | some n => simp [text, digits, hn]

theorem isDigit_of_mem_digits {s : Spelling} {c : Char} (h : c ∈ s.digits) : c.isDigit = true := by
  unfold digits at h
  cases hn : s.number with
  | none => simp [hn] at h
  | some n =>
    rw [hn] at h
    exact Nat.isDigit_of_mem_toDigits (by decide) (by decide) h

/-- What follows the head starts with a digit, if anything follows. -/
theorem IsPlain.takeWhile_rest {s : Spelling} (h : s.IsPlain) :
    (s.digits ++ s.tail.toList).takeWhile (fun c => !c.isDigit) = [] := by
  cases hn : s.number with
  | none => simp [digits, hn, h.single hn]
  | some n =>
    obtain ⟨c, cs, hcs⟩ := exists_cons_of_ne_nil (Nat.toDigits_ne_nil (n := n) (b := 10))
    have hdigits : s.digits = c :: cs := by rw [digits, hn, Option.elim_some, hcs]
    have hc : c.isDigit = true := isDigit_of_mem_digits (hdigits ▸ mem_cons_self)
    simp [hdigits, hc]

theorem IsPlain.head_eq {s : Spelling} (h : s.IsPlain) :
    s.text.toList.takeWhile (fun c => !c.isDigit) = s.head.toList := by
  have hhead : ∀ c ∈ s.head.toList, (!c.isDigit) = true := fun c hc => by
    simp [isDigit_of_hasNoDigit h.head hc]
  rw [toList_text, takeWhile_append_of_pos hhead, h.takeWhile_rest, append_nil]

theorem IsPlain.digits_eq {s : Spelling} (h : s.IsPlain) :
    (s.digits ++ s.tail.toList).takeWhile Char.isDigit = s.digits := by
  rw [takeWhile_append_of_pos fun c hc => isDigit_of_mem_digits hc]
  cases htail : s.tail.toList with
  | nil => simp
  | cons c cs => simp [isDigit_of_hasNoDigit h.tail (htail ▸ mem_cons_self)]

theorem digits_inj {a b : Spelling} (h : a.digits = b.digits) : a.number = b.number := by
  unfold digits at h
  cases ha : a.number with
  | none =>
    cases hb : b.number with
    | none => rfl
    | some n => simp [ha, hb] at h
  | some n =>
    cases hb : b.number with
    | none => simp [ha, hb] at h
    | some k =>
      have h' := congrArg (Nat.ofDigitChars 10 · 0) h
      simpa [ha, hb] using h'

/-- **The parts of a plain spelling can be read off its text.** -/
theorem text_inj {a b : Spelling} (ha : a.IsPlain) (hb : b.IsPlain) (h : a.text = b.text) :
    a = b := by
  have hhead : a.head.toList = b.head.toList := by rw [← ha.head_eq, ← hb.head_eq, h]
  have hlist : a.text.toList = b.text.toList := congrArg String.toList h
  rw [toList_text, toList_text, hhead] at hlist
  have hrest := append_cancel_left hlist
  have hdigits : a.digits = b.digits := by rw [← ha.digits_eq, ← hb.digits_eq, hrest]
  rw [hdigits] at hrest
  have htail := append_cancel_left hrest
  cases a
  cases b
  simp only [mk.injEq]
  exact ⟨String.toList_inj.1 hhead, digits_inj hdigits, String.toList_inj.1 htail⟩

end Spelling

/-! ## How names are spelled -/

/-- What comes before the number of a resource. -/
def ResourceKind.head : ResourceKind → String
  | root => "root_buffer_"
  | rootAtomic => "root_buffer_atomic_"
  | globalTmps => "global_tmps_"
  | globalTmpsAtomic => "global_tmps_atomic_"
  | args => "args_"
  | rets => "rets_"
  | texture => "texture_"
  | storageTexture => "storage_texture_"
  | sampler => "sampler_"

/-- The spelling of a resource's name, with more behind it. -/
def Resource.spelling (r : Resource) (more : String) : Spelling :=
  if r.kind.isNumbered then ⟨r.kind.head, r.id, "_" ++ more⟩ else { head := r.kind.head ++ more }

/-- The parts of an identifier. -/
def Ident.spelling : Ident → Spelling
  | temp id => ⟨"t", some id, ""⟩
  | counter id => ⟨"t", some id, "_i"⟩
  | remainder id => ⟨"t", some id, "_r"⟩
  | seen id => ⟨"t", some id, "_old"⟩
  | wanted id => ⟨"t", some id, "_new"⟩
  | outcome id => ⟨"t", some id, "_res"⟩
  | resource r => r.spelling ""
  | n => { head := n.text }

/-- The parts of a name. -/
def Name.spelling : Name → Spelling
  | ident n => n.spelling
  | wordsOf r => r.spelling "_type"
  | helper .randU32 => ⟨"rand_u", some 32, ""⟩
  | helper .randF32 => ⟨"rand_f", some 32, ""⟩
  | n => { head := n.text }

theorem Resource.text_spelling {r : Resource} (h : r.IsNumbered) (more : String) :
    (r.spelling more).text = r.name ++ more := by
  obtain ⟨kind, id⟩ := r
  cases kind <;> cases id <;> simp_all [IsNumbered, ResourceKind.isNumbered, spelling,
    Spelling.text, name, ResourceKind.head, String.append_assoc, toString]

theorem Func.eq_of_isHelper {f : Func} (h : f.isHelper = true) : f = randU32 ∨ f = randF32 := by
  cases f <;> simp_all [isHelper]

/-- A spelling spells the name. -/
theorem Name.text_spelling {n : Name} (h : n.IsProper) : n.spelling.text = n.text := by
  cases n with
  | ident n =>
    cases n with
    | resource r => simpa [spelling, Ident.spelling, text, Ident.text] using r.text_spelling h ""
    | _ => simp [spelling, Ident.spelling, Spelling.text, text, Ident.text, toString]
  | wordsOf r => simpa [spelling, text, toString] using r.text_spelling h "_type"
  | helper f => rcases Func.eq_of_isHelper h with rfl | rfl <;> decide
  | _ => simp [spelling, Spelling.text]

theorem Resource.isPlain_spelling (r : Resource) {more : String} (h : r.IsNumbered)
    (hmore : Spelling.hasNoDigit more = true) : (r.spelling more).IsPlain := by
  obtain ⟨kind, id⟩ := r
  have hhead : Spelling.hasNoDigit kind.head = true := by cases kind <;> decide
  unfold spelling
  split
  · rename_i hkind
    refine ⟨hhead, ?_, fun hnone => ?_⟩
    · rw [Spelling.hasNoDigit_append, hmore]
      decide
    · rw [IsNumbered, hkind, show id = none from hnone] at h
      cases h
  · refine ⟨?_, rfl, fun _ => rfl⟩
    rw [Spelling.hasNoDigit_append, hhead, hmore]
    rfl

/-- Names are spelled plainly. -/
theorem Name.isPlain_spelling {n : Name} (h : n.IsProper) : n.spelling.IsPlain := by
  cases n with
  | ident n =>
    cases n with
    | resource r => exact r.isPlain_spelling h (by decide)
    | temp id | counter id | remainder id | seen id | wanted id | outcome id =>
      refine ⟨?_, ?_, fun h => by cases h⟩ <;>
        simp [spelling, Ident.spelling, Spelling.hasNoDigit]
    | _ => exact ⟨by decide, by decide, fun _ => rfl⟩
  | wordsOf r => exact r.isPlain_spelling h (by decide)
  | helper f =>
    rcases Func.eq_of_isHelper h with rfl | rfl <;>
      exact ⟨by decide, by decide, fun h => by cases h⟩
  | _ => exact ⟨by decide, by decide, fun _ => rfl⟩

/-! ## Reading a name -/

/-- The names with a number, by what stands before and behind it. -/
def Name.numbered : List (String × String × (Nat → Name)) :=
  [("t", "", fun id => .ident (.temp id)), ("t", "_i", fun id => .ident (.counter id)),
    ("t", "_r", fun id => .ident (.remainder id)), ("t", "_old", fun id => .ident (.seen id)),
    ("t", "_new", fun id => .ident (.wanted id)), ("t", "_res", fun id => .ident (.outcome id)),
    ("root_buffer_", "_", fun id => .ident (.resource (.root id))),
    ("root_buffer_", "__type", fun id => .wordsOf (.root id)),
    ("root_buffer_atomic_", "_", fun id => .ident (.resource (.rootAtomic id))),
    ("root_buffer_atomic_", "__type", fun id => .wordsOf (.rootAtomic id)),
    ("texture_", "_", fun id => .ident (.resource (.texture id))),
    ("texture_", "__type", fun id => .wordsOf (.texture id)),
    ("storage_texture_", "_", fun id => .ident (.resource (.storageTexture id))),
    ("storage_texture_", "__type", fun id => .wordsOf (.storageTexture id)),
    ("sampler_", "_", fun id => .ident (.resource (.sampler id))),
    ("sampler_", "__type", fun id => .wordsOf (.sampler id)),
    ("rand_u", "", fun _ => .helper .randU32), ("rand_f", "", fun _ => .helper .randF32)]

/-- The names without a number. -/
def Name.fixed : List Name :=
  [.ident .gridIndex, .ident .rangeEnd, .ident .totalInvocs, .ident .randId, .ident .randState,
    .ident .globalInvocationId, .ident .numWorkgroups, .ident .stageInput, .ident .stageOutput,
    .ident (.resource .globalTmps), .wordsOf .globalTmps, .ident (.resource .globalTmpsAtomic),
    .wordsOf .globalTmpsAtomic, .ident (.resource .args), .wordsOf .args, .ident (.resource .rets),
    .wordsOf .rets, .randStruct, .inputStruct, .outputStruct, .entry]

/-- The name that has a spelling. -/
def Name.read (s : Spelling) : Option Name :=
  match s.number with
  | some k => (numbered.find? fun e => e.1 = s.head ∧ e.2.1 = s.tail).map fun e => e.2.2 k
  | none => fixed.find? fun n => n.text = s.head

/-- A name is read off its spelling. -/
theorem Name.read_spelling {n : Name} (h : n.IsProper) : read n.spelling = some n := by
  have hresource {r : Resource} (h : r.IsNumbered) :
      read (r.spelling "") = some (.ident (.resource r)) ∧
        read (r.spelling "_type") = some (.wordsOf r) := by
    obtain ⟨kind, id⟩ := r
    cases kind <;> cases id <;> first | exact ⟨rfl, rfl⟩ | cases h
  cases n with
  | ident n =>
    cases n with
    | resource r => exact (hresource h).1
    | _ => rfl
  | wordsOf r => exact (hresource h).2
  | helper f => rcases Func.eq_of_isHelper h with rfl | rfl <;> rfl
  | _ => rfl

/-- **Different names have different texts.** -/
theorem Name.text_inj {a b : Name} (ha : a.IsProper) (hb : b.IsProper) (h : a.text = b.text) :
    a = b := by
  rw [← text_spelling ha, ← text_spelling hb] at h
  have hspelling := Spelling.text_inj (isPlain_spelling ha) (isPlain_spelling hb) h
  have hread := read_spelling ha
  rw [hspelling, read_spelling hb] at hread
  exact (Option.some.inj hread).symm

end WgslKernel
