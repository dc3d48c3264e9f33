import WgslKernel.Proofs.Bindings.Pairs
import WgslKernel.Proofs.Decimal.Numerals

/-!
# Declarations in the text of a shader

What a device goes by is the shader text.  `Declarations.read` finds every declaration in it, with
its slot and its name, and these are the bindings of the task, in their order.  Nothing else can be
taken for one: no name, number or operator has an `@` in it.
-/

namespace WgslKernel

open List

/-! ## Reading declarations -/

namespace Declarations

/-- What a declaration starts with, up to its slot. -/
def marker : List Char := "@group(0) @binding(".toList

/-- The last word of a text. -/
def lastWord (cs : List Char) : List Char := (cs.reverse.takeWhile (· ≠ ' ')).reverse

/-- Slot and name of a declaration, from behind the marker: the name ends at the colon. -/
def slotAndName (cs : List Char) : String × String :=
  (String.ofList (cs.takeWhile Char.isDigit), String.ofList (lastWord (cs.takeWhile (· ≠ ':'))))

/-- Slots and names of all declarations in a text. -/
def read : List Char → List (String × String)
  | [] => []
  | c :: cs =>
    if marker.isPrefixOf (c :: cs) then slotAndName ((c :: cs).drop marker.length) :: read cs
    else read cs

/-! ## Texts without declarations -/

/-- No marker starts in the text, whatever follows it. -/
def quiet : List Char → Bool
  | [] => true
  | c :: cs => (c != '@' || cs.head?.any (· != 'g')) && quiet cs

variable {a b name tail : List Char}

theorem marker_append (l : List Char) :
    marker ++ l = '@' :: 'g' :: ("roup(0) @binding(".toList ++ l) := rfl

/-- What holds no marker is passed over. -/
theorem read_append (h : quiet a = true) : read (a ++ b) = read b := by
  induction a with
  | nil => rfl
  | cons c a ih =>
    rw [quiet, Bool.and_eq_true, Bool.or_eq_true, bne_iff_ne] at h
    obtain ⟨hc, ha⟩ := h
    have hmarker : ¬ marker.isPrefixOf (c :: (a ++ b)) = true := by
      rw [ isPrefixOf_iff_prefix]
      rintro ⟨l, hl⟩
      rw [marker_append, List.cons.injEq] at hl
      rcases hc with hc | hnext
      · exact hc hl.1.symm
      · cases a with
        | nil => cases hnext
        | cons d a =>
          rw [cons_append, List.cons.injEq] at hl
          simp [← hl.2.1] at hnext
    rw [cons_append, read, if_neg hmarker]
    exact ih ha

/-- Quiet texts stay quiet together. -/
theorem quiet_append (ha : quiet a = true) (hb : quiet b = true) : quiet (a ++ b) = true := by
  induction a with
  | nil => exact hb
  | cons c a ih =>
    rw [quiet, Bool.and_eq_true] at ha
    obtain ⟨hc, ha⟩ := ha
    rw [cons_append, quiet, ih ha, Bool.and_true]
    cases a with
    | nil =>
      have hne : (c != '@') = true := by simpa using hc
      simp [hne]
    | cons d a => exact hc

theorem quiet_of_not_mem (h : '@' ∉ a) : quiet a = true := by
  induction a with
  | nil => rfl
  | cons c a ih =>
    rw [mem_cons, not_or] at h
    have hne : (c != '@') = true := by simpa using Ne.symm h.1
    rw [quiet, hne, ih h.2]
    rfl

/-! ## A declaration -/

theorem lastWord_append (h : ' ' ∉ name) : lastWord (a ++ ' ' :: name) = name := by
  have hname : ∀ c ∈ name.reverse, decide (c ≠ ' ') = true := by
    intro c hc
    refine decide_eq_true fun heq => h ?_
    rw [← heq]
    exact mem_reverse.1 hc
  rw [lastWord, reverse_append, reverse_cons, List.append_assoc, takeWhile_append_of_pos hname]
  simp

/-- What is read from a declaration.  `mid` stands between slot and name. -/
theorem slotAndName_eq {slot : Nat} {mid : List Char}
    (hmid : ∃ a, ':' ∉ a ∧ mid = ')' :: (a ++ [' '])) (hblank : ' ' ∉ name) (hcolon : ':' ∉ name) :
    slotAndName (Nat.toDigits 10 slot ++ (mid ++ (name ++ (':' :: tail)))) =
      (toString slot, String.ofList name) := by
  obtain ⟨a, ha, rfl⟩ := hmid
  have hdigit {c : Char} (hc : c ∈ Nat.toDigits 10 slot) : c.isDigit = true :=
    Nat.isDigit_of_mem_toDigits (by decide) (by decide) hc
  have hfront : ∀ c ∈ (Nat.toDigits 10 slot ++ ')' :: a) ++ ' ' :: name,
      decide (c ≠ ':') = true := by
    intro c hc
    simp only [mem_append, mem_cons] at hc
    refine decide_eq_true ?_
    rintro rfl
    rcases hc with (hc | hc | hc) | hc | hc
    · cases hdigit hc
    · cases hc
    · exact ha hc
    · cases hc
    · exact hcolon hc
  have hsplit : Nat.toDigits 10 slot ++ (')' :: (a ++ [' ']) ++ (name ++ (':' :: tail))) =
      ((Nat.toDigits 10 slot ++ ')' :: a) ++ ' ' :: name) ++ ':' :: tail := by simp
  have hword : (Nat.toDigits 10 slot ++ (')' :: (a ++ [' ']) ++ (name ++ (':' :: tail)))).takeWhile
      (· ≠ ':') = (Nat.toDigits 10 slot ++ ')' :: a) ++ ' ' :: name := by
    rw [hsplit, takeWhile_append_of_pos hfront]
    simp
  rw [slotAndName, hword, lastWord_append hblank, takeWhile_append_of_pos fun c => hdigit]
  simp [Nat.repr]

/-- A marker is read as a declaration. -/
theorem read_marker {body : List Char} (h : '@' ∉ body) (rest : List Char) :
    read (marker ++ (body ++ rest)) = slotAndName (body ++ rest) :: read rest := by
  have hprefix : marker.isPrefixOf (marker ++ (body ++ rest)) = true := by simp
  have hquiet : quiet ("group(0) @binding(".toList ++ body) = true :=
    quiet_append (by decide) (quiet_of_not_mem h)
  have hread : read ("group(0) @binding(".toList ++ (body ++ rest)) = read rest := by
    rw [← List.append_assoc]
    exact read_append hquiet
  conv => lhs; rw [marker_append, read, ← marker_append]
  rw [if_pos hprefix, drop_left]
  exact congrArg _ hread

/-- A declaration is read with its slot and its name. -/
theorem read_declaration {slot : Nat} {mid : List Char}
    (hmid : ∃ a, ':' ∉ a ∧ mid = ')' :: (a ++ [' '])) (hmid' : '@' ∉ mid) (hname : '@' ∉ name)
    (hblank : ' ' ∉ name) (hcolon : ':' ∉ name) (htail : '@' ∉ tail) (rest : List Char) :
    read (marker ++ (Nat.toDigits 10 slot ++ (mid ++ (name ++ (':' :: (tail ++ rest)))))) =
      (toString slot, String.ofList name) :: read rest := by
  have hslot : '@' ∉ Nat.toDigits 10 slot := by
    intro h
    cases Nat.isDigit_of_mem_toDigits (by decide) (by decide) h
  have hbody : '@' ∉ Nat.toDigits 10 slot ++ (mid ++ (name ++ (':' :: tail))) := by
    simp [hslot, hmid', hname, htail]
  have hrest : Nat.toDigits 10 slot ++ (mid ++ (name ++ (':' :: (tail ++ rest)))) =
      (Nat.toDigits 10 slot ++ (mid ++ (name ++ (':' :: tail)))) ++ rest := by simp
  rw [hrest, read_marker hbody, ← hrest, slotAndName_eq hmid hblank hcolon]

end Declarations

/-! ## Texts without an `@` -/

/-- The text has no `@` in it. -/
def Unmarked (text : String) : Prop := '@' ∉ text.toList

/-- It is decided by looking. -/
instance (text : String) : Decidable (Unmarked text) := inferInstanceAs (Decidable ('@' ∉ _))

@[simp] theorem unmarked_append {a b : String} : Unmarked (a ++ b) ↔ Unmarked a ∧ Unmarked b := by
  simp [Unmarked]

@[simp] theorem unmarked_ofList {cs : List Char} : Unmarked (String.ofList cs) ↔ '@' ∉ cs := by
  simp [Unmarked]

theorem unmarked_of_isNumeric {text : String} (h : isNumeric text = true) : Unmarked text :=
  not_mem_of_isNumeric h (by decide)

@[simp] theorem unmarked_repr (n : Nat) : Unmarked n.repr :=
  unmarked_of_isNumeric (isNumeric_repr n)

/-! ### Names -/

/-- Letters, digits and underscores only. -/
def isWord (text : String) : Bool := text.toList.all fun c => c.isAlphanum || c == '_'

@[simp] theorem isWord_append (a b : String) : isWord (a ++ b) = (isWord a && isWord b) := by
  simp [isWord]

@[simp] theorem isWord_repr (n : Nat) : isWord n.repr = true := by
  rw [isWord, all_eq_true]
  intro c hc
  have hdigit : c.isDigit = true :=
    Nat.isDigit_of_mem_toDigits (b := 10) (by decide) (by decide) (by simpa using hc)
  simp [Char.isAlphanum, hdigit]

theorem not_mem_of_isWord {text : String} (h : isWord text = true) {c : Char}
    (hc : (c.isAlphanum || c == '_') = false) : c ∉ text.toList := by
  intro hmem
  have := all_eq_true.1 h c hmem
  rw [hc] at this
  cases this

/-- The name of a resource is a word. -/
theorem Resource.isWord_name (r : Resource) : isWord r.name = true := by
  unfold name
  cases r.kind <;> simp +decide [toString]

theorem Resource.unmarked_name (r : Resource) : Unmarked r.name :=
  not_mem_of_isWord r.isWord_name (by decide)

theorem Ident.unmarked_text (n : Ident) : Unmarked n.text := by
  cases n with
  | resource r => exact r.unmarked_name
  | _ => simp +decide [text, toString]

theorem MemberName.unmarked_text (n : MemberName) : Unmarked n.text := by
  cases n <;> simp +decide [text, toString]

theorem ShaderType.unmarked_name (t : ShaderType) : Unmarked t.name := by
  have hscalar : Unmarked t.scalar.name := by cases t.scalar <;> decide
  unfold name
  split
  · exact hscalar
  · simp +decide [toString, hscalar]

theorem Literal.unmarked_text (l : Literal) : Unmarked l.text :=
  unmarked_of_isNumeric l.isNumeric_text

/-! ### Code -/

theorem Callee.unmarked_text (c : Callee) : Unmarked c.text := by
  cases c with
  | func f => cases f <;> decide
  | construct type => exact type.unmarked_name
  | bitcast type =>
    simp only [text, toString, unmarked_append]
    exact ⟨⟨by decide, type.unmarked_name⟩, by decide⟩

theorem Selector.unmarked_text (s : Selector) : Unmarked s.text := by
  cases s with
  | stage name => exact name.unmarked_text
  | _ => decide

theorem unmarked_intercalate {texts : List String} (h : ∀ t ∈ texts, Unmarked t) :
    Unmarked (String.intercalate ", " texts) := by
  have hcons {t : String} {more : List String} (ht : Unmarked t)
      (hmore : Unmarked (String.intercalate ", " more)) :
      Unmarked (String.intercalate ", " (t :: more)) := by
    cases more with
    | nil => simpa [Unmarked] using ht
    | cons u more =>
      rw [String.intercalate_cons_cons, unmarked_append, unmarked_append]
      exact ⟨⟨ht, by decide⟩, hmore⟩
  induction texts with
  | nil => decide
  | cons t texts ih =>
    obtain ⟨ht, htexts⟩ := forall_mem_cons.1 h
    exact hcons ht (ih htexts)

theorem Operator.unmarked_symbol (op : Operator) : Unmarked op.symbol := by
  cases op <;> decide

namespace Expr

mutual

/-- There is no mark in an expression. -/
theorem unmarked_text : ∀ e : Expr, Unmarked e.text
  | ident name => name.unmarked_text
  | lit literal => literal.unmarked_text
  | neg e => unmarked_append.2 ⟨by decide, unmarked_text e⟩
  | bitNot e => unmarked_append.2 ⟨by decide, unmarked_text e⟩
  | binary op lhs rhs => by
    simp only [text, unmarked_append]
    exact ⟨⟨⟨⟨unmarked_text lhs, by decide⟩, op.unmarked_symbol⟩, by decide⟩, unmarked_text rhs⟩
  | paren e => by
    simp only [text, unmarked_append]
    exact ⟨⟨by decide, unmarked_text e⟩, by decide⟩
  | call callee args => by
    simp only [text, unmarked_append]
    exact ⟨⟨⟨callee.unmarked_text, by decide⟩, unmarked_intercalate (unmarked_texts args)⟩,
      by decide⟩
  | select e selector => by
    simp only [text, unmarked_append]
    exact ⟨⟨unmarked_text e, by decide⟩, selector.unmarked_text⟩
  | index e i => by
    simp only [text, unmarked_append]
    exact ⟨⟨⟨unmarked_text e, by decide⟩, unmarked_text i⟩, by decide⟩
  | address e => unmarked_append.2 ⟨by decide, unmarked_text e⟩

theorem unmarked_texts : ∀ (es : List Expr), ∀ t ∈ texts es, Unmarked t
  | [], t, ht => by cases ht
  | e :: es, t, ht => by
    rcases mem_cons.1 ht with rfl | ht
    · exact unmarked_text e
    · exact unmarked_texts es t ht

end

end Expr

theorem Line.unmarked_text (l : Line) : Unmarked l.text := by
  cases l with
  | letBind name type value =>
    cases type with
    | none =>
      simp +decide [text, toString, name.unmarked_text, value.unmarked_text]
    | some type =>
      simp +decide [text, toString, name.unmarked_text, value.unmarked_text, type.unmarked_name]
  | declare name type value =>
    cases value with
    | none => simp +decide [text, toString, name.unmarked_text, type.unmarked_name]
    | some value =>
      simp +decide [text, toString, name.unmarked_text, value.unmarked_text, type.unmarked_name]
  | assign target value =>
    simp +decide [text, toString, target.unmarked_text, value.unmarked_text]
  | perform call => simp +decide [text, toString, call.unmarked_text]
  | _ => decide

theorem LoopHeader.unmarked_text (h : LoopHeader) : Unmarked h.text := by
  unfold text
  simp only [toString]
  simp only [unmarked_append, h.counter.unmarked_text, h.start.unmarked_text,
    h.stop.unmarked_text, h.step.unmarked_text, and_true]
  decide

namespace Code

theorem unmarked_lineAt (depth : Nat) {content : String} (h : Unmarked content) :
    Unmarked (lineAt depth content) := by
  have hindent : Unmarked (String.ofList (List.replicate (4 * depth) ' ')) := by simp
  exact unmarked_append.2 ⟨unmarked_append.2 ⟨hindent, h⟩, by decide⟩

/-- There is no mark in code. -/
theorem unmarked_text (depth : Nat) (c : Code) : Unmarked (c.text depth) := by
  have hopen (cond : Expr) : Unmarked (s!"if ({cond.text}) \x7b") := by
    simp +decide [toString, cond.unmarked_text]
  induction c generalizing depth with
  | done => exact not_mem_nil
  | line l rest ih =>
    exact unmarked_append.2 ⟨unmarked_lineAt depth l.unmarked_text, ih depth⟩
  | branch cond yes rest ihYes ihRest =>
    simp only [text, unmarked_append]
    exact ⟨⟨⟨unmarked_lineAt depth (hopen cond), ihYes _⟩, unmarked_lineAt depth (by decide)⟩,
      ihRest depth⟩
  | branchElse cond yes no rest ihYes ihNo ihRest =>
    simp only [text, unmarked_append]
    exact ⟨⟨⟨⟨⟨unmarked_lineAt depth (hopen cond), ihYes _⟩, unmarked_lineAt depth (by decide)⟩,
      ihNo _⟩, unmarked_lineAt depth (by decide)⟩, ihRest depth⟩
  | loop body rest ihBody ihRest =>
    simp only [text, unmarked_append]
    exact ⟨⟨⟨unmarked_lineAt depth (by decide), ihBody _⟩, unmarked_lineAt depth (by decide)⟩,
      ihRest depth⟩
  | countLoop h body rest ihBody ihRest =>
    simp only [text, unmarked_append]
    exact ⟨⟨⟨unmarked_lineAt depth (unmarked_append.2 ⟨h.unmarked_text, by decide⟩), ihBody _⟩,
      unmarked_lineAt depth (by decide)⟩, ihRest depth⟩

end Code

/-! ## The declarations of a shader -/

/-- The texel format of a declaration has no `@` in it. -/
def Declaration.IsPlain : Declaration → Prop
  | .handle (.storage _ format) => Unmarked format
  | _ => True

namespace Declarations

/-- What is declared for a binding. -/
def ofBinding (b : Binding) : String × String := (toString b.slot, b.resource.name)

theorem unmarked_handle {type : Handle} (h : (Declaration.handle type).IsPlain) :
    Unmarked type.name := by
  have hsuffix (dim : TextureDim) : Unmarked dim.suffix := by cases dim <;> decide
  cases type with
  | sampler => decide
  | sampled dim =>
    show Unmarked ("texture_" ++ dim.suffix ++ "<f32>")
    exact unmarked_append.2 ⟨unmarked_append.2 ⟨by decide, hsuffix dim⟩, by decide⟩
  | depth dim =>
    exact unmarked_append.2 ⟨by decide, hsuffix dim⟩
  | storage dim format =>
    show Unmarked ("texture_storage_" ++ dim.suffix ++ "<" ++ format ++ ", write>")
    have hdim : Unmarked ("texture_storage_" ++ dim.suffix ++ "<") :=
      unmarked_append.2 ⟨unmarked_append.2 ⟨by decide, hsuffix dim⟩, by decide⟩
    exact unmarked_append.2 ⟨unmarked_append.2 ⟨hdim, h⟩, by decide⟩

/-- The type of the words of a buffer. -/
def arrayText (atomic : Bool) (length : Option Nat) : String :=
  let element := if atomic then "atomic<i32>" else "i32"
  match length with
  | some n => s!"array<{element}, {n}>"
  | none => s!"array<{element}>"

theorem unmarked_arrayText (atomic : Bool) (length : Option Nat) :
    Unmarked (arrayText atomic length) := by
  cases atomic <;> cases length <;> simp +decide [arrayText, toString]

/-- The structure behind a buffer. -/
def wordsText (name array : String) : String :=
  s!"struct {name}_type \x7b\n    member: {array},\n\x7d\n"

theorem unmarked_wordsText {name array : String} (hname : Unmarked name)
    (harray : Unmarked array) : Unmarked (wordsText name array) := by
  unfold wordsText
  simp only [toString]
  simp only [unmarked_append, hname, harray, and_true]
  decide

/-- A buffer as it is declared. -/
theorem text_buffer (r : Resource) (slot : Nat) (atomic : Bool) (length : Option Nat)
    (writable : Bool) : Global.text ⟨⟨r, slot⟩, .buffer atomic length writable⟩ =
      wordsText r.name (arrayText atomic length) ++ ("@group(0) @binding(" ++ slot.repr ++
        ") var<storage, " ++ (if writable then "read_write" else "read") ++ "> " ++ r.name ++
        ": " ++ r.name ++ "_type;\n\n") := rfl

/-- **A global is read as its binding.** -/
theorem read_global {g : Global} (h : g.declaration.IsPlain) (rest : List Char) :
    read (g.text.toList ++ rest) = ofBinding g.binding :: read rest := by
  obtain ⟨⟨r, slot⟩, declaration⟩ := g
  have hname : '@' ∉ r.name.toList := r.unmarked_name
  have hblank : ' ' ∉ r.name.toList := not_mem_of_isWord r.isWord_name (by decide)
  have hcolon : ':' ∉ r.name.toList := not_mem_of_isWord r.isWord_name (by decide)
  have hread {mid : List Char} {tail : String} (hmid : ∃ a, ':' ∉ a ∧ mid = ')' :: (a ++ [' ']))
      (hmid' : '@' ∉ mid) (htail : Unmarked tail) :
      read (marker ++ (Nat.toDigits 10 slot ++ (mid ++ (r.name.toList ++ (':' ::
        (tail.toList ++ rest)))))) = ofBinding ⟨r, slot⟩ :: read rest := by
    rw [read_declaration hmid hmid' hname hblank hcolon htail, String.ofList_toList]
    rfl
  cases declaration with
  | handle type =>
    have htail : Unmarked (" " ++ type.name ++ ";\n\n") := by
      simp only [unmarked_append, unmarked_handle h, and_true]
      decide
    have hmid : ∃ a, ':' ∉ a ∧ ") var ".toList = ')' :: (a ++ [' ']) :=
      ⟨" var".toList, by decide, rfl⟩
    rw [← hread hmid (by decide) htail]
    simp only [Global.text, toString, String.toList_append, Nat.repr, String.toList_ofList,
      List.append_assoc]
    rfl
  | buffer atomic length writable =>
    have hstruct := unmarked_wordsText r.unmarked_name (unmarked_arrayText atomic length)
    have htail : Unmarked (" " ++ r.name ++ "_type;\n\n") := by
      simp only [unmarked_append, r.unmarked_name, and_true]
      decide
    have htext : (Global.text ⟨⟨r, slot⟩, .buffer atomic length writable⟩).toList ++ rest =
        (wordsText r.name (arrayText atomic length)).toList ++ (marker ++ (Nat.toDigits 10 slot ++
          ((") var<storage, " ++ (if writable then "read_write" else "read") ++ "> ").toList ++
            (r.name.toList ++ (':' :: ((" " ++ r.name ++ "_type;\n\n").toList ++ rest)))))) := by
      rw [text_buffer]
      simp only [String.toList_append, Nat.repr, String.toList_ofList, List.append_assoc]
      rfl
    rw [htext, read_append (quiet_of_not_mem hstruct)]
    cases writable with
    | true => exact hread ⟨" var<storage, read_write>".toList, by decide, rfl⟩ (by decide) htail
    | false => exact hread ⟨" var<storage, read>".toList, by decide, rfl⟩ (by decide) htail

example : read "@group(0) @binding(12) var<storage, read> args_: args__type;\n".toList =
    [("12", "args_")] := by decide

/-! ### The rest of a shader -/

/-- No declaration starts in the text. -/
def Silent (text : String) : Prop := quiet text.toList = true

/-- It is decided by reading. -/
instance (text : String) : Decidable (Silent text) :=
  inferInstanceAs (Decidable (quiet text.toList = true))

theorem Silent.append {a b : String} (ha : Silent a) (hb : Silent b) : Silent (a ++ b) := by
  rw [Silent, String.toList_append]
  exact quiet_append ha hb

/-- Without a mark nothing is read. -/
theorem silent_of_unmarked {text : String} (h : Unmarked text) : Silent text := quiet_of_not_mem h

theorem silent_join {texts : List String} (h : ∀ t ∈ texts, Silent t) :
    Silent (String.join texts) := by
  rw [Silent, String.toList_join]
  induction texts with
  | nil => rfl
  | cons t texts ih =>
    obtain ⟨ht, htexts⟩ := forall_mem_cons.1 h
    rw [flatMap_cons]
    exact quiet_append ht (ih htexts)

/-- The random functions declare no resource. -/
theorem silent_randomHelpers : Silent randomHelpers := by
  refine silent_join fun t ht => ?_
  obtain ⟨l, hl, rfl⟩ := mem_map.1 ht
  refine (silent_of_unmarked ?_).append (by decide)
  revert l
  decide +kernel

theorem silent_declaration (m : StageMember) : Silent m.declaration := by
  obtain ⟨name, type, slot⟩ := m
  have hname := silent_of_unmarked name.unmarked_text
  have htype := silent_of_unmarked type.unmarked_name
  have hwired {wiring : String} (h : Silent wiring) :
      Silent (wiring ++ " " ++ name.text ++ ": " ++ type.name) :=
    (((h.append (by decide)).append hname).append (by decide)).append htype
  have hlocation (n : Nat) : Silent ("@location(" ++ n.repr) :=
    Silent.append (by decide) (silent_of_unmarked (unmarked_repr n))
  rcases slot with ⟨n, _ | _⟩ | value
  · exact hwired ((hlocation n).append (by decide))
  · exact hwired ((hlocation n).append (by decide))
  · have hvalue : Silent value.name := by cases value <;> decide
    exact hwired ((Silent.append (by decide) hvalue).append (by decide))

theorem silent_structText {name : String} (hname : Silent name) (members : List StageMember) :
    Silent (Shader.structText name members) := by
  unfold Shader.structText
  split
  · decide
  · refine ((Silent.append ?_ (silent_join ?_))).append (by decide)
    · exact (Silent.append (by decide) hname).append (by decide)
    · intro t ht
      obtain ⟨m, -, rfl⟩ := mem_map.1 ht
      exact (Silent.append (by decide) (silent_declaration m)).append (by decide)

theorem silent_signatureText (s : Shader) : Silent s.signatureText := by
  have hparam : Silent (if s.layout.inputs.isEmpty then "" else "stage_input: StageInput") := by
    split <;> decide
  have hresult : Silent (if s.layout.outputs.isEmpty then "" else "-> StageOutput ") := by
    split <;> decide
  have hstage (name : String) (hname : Silent ("@" ++ name)) :
      Silent ("@" ++ name ++ "\nfn main(" ++
        (if s.layout.inputs.isEmpty then "" else "stage_input: StageInput") ++ ") " ++
        (if s.layout.outputs.isEmpty then "" else "-> StageOutput ") ++ "\x7b\n") :=
    ((((hname.append (by decide)).append hparam).append (by decide)).append hresult).append
      (by decide)
  unfold Shader.signatureText
  cases s.stage with
  | compute =>
    refine (Silent.append ?_ (by decide)).append (by decide)
    exact (Silent.append (by decide) (silent_of_unmarked (unmarked_repr _))).append (by decide)
  | vertex => exact hstage "vertex" (by decide)
  | fragment => exact hstage "fragment" (by decide)

/-- **The declarations in the text of a shader are its globals**, in their order. -/
theorem read_shader {s : Shader} (h : ∀ g ∈ s.globals, g.declaration.IsPlain) :
    read s.text.toList = s.globals.map fun g => ofBinding g.binding := by
  have hglobals : ∀ gs : List Global, (∀ g ∈ gs, g.declaration.IsPlain) → ∀ rest,
      read ((String.join (gs.map Global.text)).toList ++ rest) =
        gs.map (fun g => ofBinding g.binding) ++ read rest := by
    intro gs hgs rest
    rw [String.toList_join]
    induction gs with
    | nil => rfl
    | cons g gs ih =>
      obtain ⟨hg, hgs⟩ := forall_mem_cons.1 hgs
      rw [map_cons, flatMap_cons, List.append_assoc, read_global hg, ih hgs]
      rfl
  have hrandom : Silent (if s.random then randomHelpers else "") := by
    split
    · exact silent_randomHelpers
    · decide
  have houtput (t : String) (ht : Silent t) : Silent (if s.returnsOutput then t else "") := by
    split
    · exact ht
    · decide
  obtain ⟨rest, hrest, htext⟩ : ∃ rest, Silent rest ∧
      s.text = String.join (s.globals.map Global.text) ++ rest := by
    refine ⟨_, ?_, by simp only [Shader.text, String.append_assoc]; rfl⟩
    refine hrandom.append ?_
    refine (silent_structText (by decide) _).append ?_
    refine (silent_structText (by decide) _).append ?_
    refine (silent_signatureText s).append ?_
    refine (houtput _ (by decide)).append ?_
    refine (silent_of_unmarked (s.prologue.unmarked_text 1)).append ?_
    refine (silent_of_unmarked (s.body.unmarked_text 1)).append ?_
    exact (houtput _ (by decide)).append (by decide)
  have hnone : read rest.toList = [] := by
    have := read_append (b := []) hrest
    rwa [append_nil] at this
  rw [htext, String.toList_append, hglobals _ h, hnone, append_nil]

end Declarations

end WgslKernel
