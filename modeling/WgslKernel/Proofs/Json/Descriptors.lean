import WgslKernel.Descriptor
import WgslKernel.Proofs.Interface.Members
import WgslKernel.Proofs.Json.Grammar

/-!
# Task descriptors read back

A runtime reads a descriptor by the keys of its objects and the tags of its alternatives, in
whatever order they stand, and what it reads from the descriptor of a kernel is that kernel.
-/

namespace WgslKernel

open List

/-! ## Reading by keys and tags -/

namespace Json

variable {α : Type}

/-- What a reader makes of the member with a key. -/
def get? (key : String) (read : Json → Option α) : Json → Option α
  | obj members => members.lookup key >>= read
  | _ => none

/-- A number. -/
def nat? : Json → Option Nat
  | nat n => some n
  | _ => none

/-- A truth value. -/
def bool? : Json → Option Bool
  | bool b => some b
  | _ => none

/-- A string. -/
def str? : Json → Option String
  | str s => some s
  | _ => none

/-- The items of an array. -/
def list? (read : Json → Option α) : Json → Option (List α)
  | arr items => items.mapM read
  | _ => none

/-- `null`, or what is read. -/
def nullable? (read : Json → Option α) : Json → Option (Option α)
  | null => some none
  | j => (read j).map some

/-- One of some named things. -/
def named? (all : List α) (name : α → String) (j : Json) : Option α := do
  let text ← j.str?
  all.find? (name · == text)

variable {key key' : String} {read : Json → Option α} {j : Json} {members : List (String × Json)}

@[simp] theorem get?_nil : (obj []).get? key read = none := rfl

@[simp] theorem get?_self : (obj ((key, j) :: members)).get? key read = read j := by
  simp [get?]

@[simp] theorem get?_cons (h : key ≠ key') :
    (obj ((key', j) :: members)).get? key read = (obj members).get? key read := by
  simp [get?, lookup_cons, beq_eq_false_iff_ne.2 h]

theorem nullable?_some {a : α} (h : read j = some a) (hj : j ≠ null) :
    nullable? read j = some (some a) := by
  cases j with
  | null => exact absurd rfl hj
  | _ => exact congrArg (Option.map some) h

/-- Arrays read back. -/
theorem list?_map {write : α → Json} (h : ∀ a, read (write a) = some a)
    (as : List α) : list? read (arr (as.map write)) = some as := by
  rw [list?]
  induction as with
  | nil => rfl
  | cons a as ih => simp [h, ih]

end Json

open Json

attribute [local simp] nat? bool? str?

/-- The member name with this text. -/
def MemberName.ofText? (text : String) : Option MemberName :=
  let n := Nat.ofDigitChars 10 (text.toList.filter Char.isDigit) 0
  [vertexAttribute n, varying n, color n, vertexIndex, instanceIndex, fragCoord, position,
    fragDepth].find? (·.text == text)

/-- The type with this name. -/
def ShaderType.ofName? (name : String) : Option ShaderType :=
  let width := Nat.ofDigitChars 10 ((name.toList.drop 3).takeWhile Char.isDigit) 0
  [⟨.i32, 1⟩, ⟨.u32, 1⟩, ⟨.f32, 1⟩, ⟨.i32, width⟩, ⟨.u32, width⟩, ⟨.f32, width⟩].find?
    (·.name == name)

/-- Reads a binding. -/
def Binding.ofJson? (j : Json) : Option Binding := do
  let kind ← j.get? "info" (get? "resource_type" (named? [.root, .rootAtomic, .globalTmps,
    .globalTmpsAtomic, .args, .rets, .texture, .storageTexture, .sampler] ResourceKind.tag))
  let id ← j.get? "info" (get? "resource_id" (nullable? nat?))
  let slot ← j.get? "binding" nat?
  some ⟨⟨kind, id⟩, slot⟩

/-- Reads a range hint. -/
def RangeHint.ofJson? (j : Json) : Option RangeHint :=
  (j.get? "const" nat?).map .const <|>
  (j.get? "dynamic" (get? "offset" nat?)).map .dynamic <|> do
    let field ← j.get? "field_elements" (get? "field" nat?)
    let count ← j.get? "field_elements" (get? "count" nat?)
    some (.fieldElements field count)

/-- Reads the place of a member. -/
def MemberSlot.ofJson? (j : Json) : Option MemberSlot :=
  (j.get? "builtin" (named? [.position, .vertexIndex, .instanceIndex, .fragDepth]
    PipelineValue.name)).map .builtin <|> do
    let n ← j.get? "location" (get? "location" nat?)
    let flat ← j.get? "location" (get? "flat" bool?)
    some (.location n flat)

/-- Reads a member. -/
def StageMember.ofJson? (j : Json) : Option StageMember := do
  let name ← j.get? "name" str?
  let name ← MemberName.ofText? name
  let type ← j.get? "type_name" str?
  let type ← ShaderType.ofName? type
  let slot ← j.get? "slot" MemberSlot.ofJson?
  some ⟨name, type, slot⟩

/-- Reads a stage interface. -/
def StageLayout.ofJson? (j : Json) : Option StageLayout := do
  let inputs ← j.get? "inputs" (list? StageMember.ofJson?)
  let outputs ← j.get? "outputs" (list? StageMember.ofJson?)
  some ⟨inputs, outputs⟩

/-- Reads a dispatch. -/
def Dispatch.ofJson? (j : Json) : Option Dispatch :=
  (j.get? "vertex" StageLayout.ofJson?).map .vertex <|>
  (j.get? "fragment" StageLayout.ofJson?).map .fragment <|> do
    let size ← j.get? "compute" (get? "workgroup_size" nat?)
    let count ← j.get? "compute" (get? "num_workgroups" nat?)
    let range ← j.get? "compute" (get? "range" (nullable? RangeHint.ofJson?))
    some (.compute size count range)

/-- Reads a signature. -/
def Signature.ofJson? (j : Json) : Option Signature := do
  let argBytes ← j.get? "arg_bytes" nat?
  let retBytes ← j.get? "ret_bytes" nat?
  some ⟨argBytes, retBytes⟩

/-- Reads a task. -/
def Task.ofJson? (j : Json) : Option Task := do
  let kind ← j.get? "kind" (named? [.serial, .rangeFor, .vertexFor, .fragmentFor] OffloadKind.name)
  let entryPoint ← j.get? "entry_point" str?
  let code ← j.get? "code" str?
  let codeHash ← j.get? "code_hash" str?
  let bindings ← j.get? "bindings" (list? Binding.ofJson?)
  let signature ← Signature.ofJson? j
  let dispatch ← j.get? "dispatch" Dispatch.ofJson?
  some ⟨kind, entryPoint, code, codeHash, bindings, signature, dispatch⟩

/-- Reads a kernel. -/
def Kernel.ofJson? (j : Json) : Option Kernel := do
  let tasks ← j.get? "tasks" (list? Task.ofJson?)
  let signature ← Signature.ofJson? j
  some ⟨tasks, signature⟩

/-! ## Nothing is lost -/

/-- A binding reads back. -/
theorem Binding.ofJson?_toJson (b : Binding) : ofJson? b.toJson = some b := by
  obtain ⟨⟨kind, id⟩, slot⟩ := b
  cases kind <;> cases id <;>
    simp [ofJson?, toJson, named?, nullable?, ResourceKind.tag]

/-- A range hint reads back. -/
theorem RangeHint.ofJson?_toJson (h : RangeHint) : ofJson? h.toJson = some h := by
  cases h <;> simp [ofJson?, toJson]

theorem MemberSlot.ofJson?_toJson (s : MemberSlot) : ofJson? s.toJson = some s := by
  cases s with
  | location => simp [ofJson?, toJson]
  | builtin value => cases value <;> simp [ofJson?, toJson, named?, PipelineValue.name]

/-- The first thing with a name is the one, if names differ. -/
theorem find?_name {α : Type} {all : List α} {name : α → String} {a : α} (hmem : a ∈ all)
    (h : ∀ b ∈ all, name b = name a → b = a) : all.find? (name · == name a) = some a := by
  cases hfind : all.find? (name · == name a) with
  | none => simpa using List.find?_eq_none.1 hfind a hmem
  | some b =>
    have hname := List.find?_some hfind
    rw [h b (mem_of_find?_eq_some hfind) (beq_iff_eq.1 hname)]

/-- The text of a member tells the member. -/
theorem MemberName.ofText?_text (name : MemberName) : ofText? name.text = some name := by
  have hdigits (n : Nat) : Nat.ofDigitChars 10 ((Nat.toDigits 10 n).filter Char.isDigit) 0 = n := by
    rw [filter_eq_self.2 fun _ => isDigit_toDigits, Nat.ofDigitChars_ten_toDigits]
  refine find?_name ?_ fun _ _ => text_inj
  cases name <;> simp [text, toString, hdigits]

/-- The name of a type tells the type. -/
theorem ShaderType.ofName?_name (t : ShaderType) : ofName? t.name = some t := by
  obtain ⟨s, w⟩ := t
  by_cases hw : w = 1
  · subst hw
    cases s <;> rfl
  · have htext (s : Scalar) : (ShaderType.mk s w).name.toList =
        'v' :: 'e' :: 'c' :: (w.repr.toList ++ '<' :: (s.name.toList ++ ['>'])) := by
      simp [name, hw, toString]
    have hstops : Reader.Stops Char.isDigit ('<' :: (s.name.toList ++ ['>'])) := by
      simp [Reader.Stops]
    rw [ofName?, htext]
    simp only [drop_succ_cons, drop_zero, (Reader.span_repr w hstops).1,
      Nat.ofDigitChars_ten_toDigits]
    refine find?_name (by cases s <;> simp) fun b hb heq => ?_
    simp only [mem_cons, not_mem_nil, or_false] at hb
    rw [← String.toList_inj, htext] at heq
    rcases hb with rfl | rfl | rfl | rfl | rfl | rfl <;> cases s <;>
      simp [name, hw, Scalar.name, toString] at heq ⊢

/-- A member reads back. -/
theorem StageMember.ofJson?_toJson (m : StageMember) : ofJson? m.toJson = some m := by
  simp [ofJson?, toJson, MemberName.ofText?_text, ShaderType.ofName?_name,
    MemberSlot.ofJson?_toJson]

/-- A stage interface reads back. -/
theorem StageLayout.ofJson?_toJson (l : StageLayout) : ofJson? l.toJson = some l := by
  simp [ofJson?, toJson, list?_map StageMember.ofJson?_toJson]

/-- A dispatch reads back. -/
theorem Dispatch.ofJson?_toJson (d : Dispatch) : ofJson? d.toJson = some d := by
  cases d with
  | compute size count range =>
    cases range with
    | none => simp [ofJson?, toJson, nullable?]
    | some hint =>
      have hnull : hint.toJson ≠ .null := by cases hint <;> simp [RangeHint.toJson]
      simp [ofJson?, toJson, nullable?_some hint.ofJson?_toJson hnull]
  | vertex layout | fragment layout => simp [ofJson?, toJson, StageLayout.ofJson?_toJson]

/-- A task reads back. -/
theorem Task.ofJson?_toJson (t : Task) : ofJson? t.toJson = some t := by
  have hkind : named? [.serial, .rangeFor, .vertexFor, .fragmentFor] OffloadKind.name
      (str t.kind.name) = some t.kind := by
    cases t.kind <;> rfl
  simp [ofJson?, toJson, hkind, Signature.ofJson?, list?_map Binding.ofJson?_toJson,
    Dispatch.ofJson?_toJson]

/-- A kernel reads back. -/
theorem Kernel.ofJson?_toJson (k : Kernel) : ofJson? k.toJson = some k := by
  simp [ofJson?, toJson, Signature.ofJson?, list?_map Task.ofJson?_toJson]

/-- **A descriptor is JSON, and it describes its kernel and no other.** -/
theorem Kernel.descriptor_faithful (k k' : Kernel) :
    ((∃ j, Spells k.toJson.pretty j ∧ ofJson? j = some k') ↔ k' = k) ∧
      (k'.toJson.pretty = k.toJson.pretty ↔ k' = k) := by
  have hread : (∃ j, Spells k.toJson.pretty j ∧ ofJson? j = some k') ↔ k' = k := by
    constructor
    · rintro ⟨j, hj, hk'⟩
      rw [(spells_pretty k.toJson).unique hj, ofJson?_toJson] at hk'
      exact (Option.some.inj hk').symm
    · rintro rfl
      exact ⟨_, spells_pretty _, ofJson?_toJson _⟩
  refine ⟨hread, fun h => hread.1 ⟨k'.toJson, h ▸ spells_pretty _, ofJson?_toJson k'⟩, ?_⟩
  rintro rfl
  rfl

end WgslKernel
