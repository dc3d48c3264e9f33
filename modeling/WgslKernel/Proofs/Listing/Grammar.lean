import Mathlib.Logic.Function.Basic
import WgslKernel.Proofs.Decimal.RoundTrip
import WgslKernel.Proofs.Listing.Readers

/-!
# The grammar of headers

A header shows what a statement does, but not all of it (`Kind.shown`).  The first word of a
description tells how to read what follows, and no two entries of the grammar have the same word, so
equal headers show equal statements.
-/

namespace WgslKernel

open List

/-! ## What a header shows -/

/-- All NaN patterns made one. -/
def Binary32.erased (bits : UInt32) : UInt32 := if isNaN bits then 0x7fc00000 else bits

/-- The float with a text. -/
noncomputable def Binary32.ofText : String → UInt32 := Function.extend text erased fun _ => 0

/-- The text of a float tells the float, but for NaNs. -/
theorem Binary32.ofText_text (bits : UInt32) : ofText (text bits) = erased bits := by
  refine Function.FactorsThrough.extend_apply (fun a b hab => ?_) _ bits
  rcases eq_of_text_eq hab with rfl | ⟨ha, hb⟩
  · rfl
  · rw [erased, erased, if_pos ha, if_pos hb]

/-- A constant as far as it is shown. -/
def Const.erased : Const → Const
  | .i32 v => .i32 v
  | .f32 bits => .f32 (Binary32.erased bits)

/-- A field that has only a number. -/
def Field.numbered (id : Nat) : Field := { id, shape := [], dtype := .i32 }

/-- A texture that has only a number. -/
def Texture.numbered (id : Nat) : Texture := ⟨id, .d2, .rgba8Unorm⟩

/-- A bound as far as it is shown. -/
def RangeBound.erased : RangeBound → RangeBound
  | .value v => .value v
  | .field f => .field (.numbered f.id)

namespace Kind

/-- Fields and textures replaced by their numbers, and NaNs by one NaN. -/
def erased : Kind → Kind
  | const c => const c.erased
  | rangeFor bound serial body => rangeFor bound.erased serial body
  | globalPtr field indices offset => globalPtr (.numbered field.id) indices offset
  | texture access tex coords => texture access (.numbered tex.id) coords
  | kind => kind

/-- The kind with other blocks in place of those it owns. -/
def withBlocks (a b : BlockId) : Kind → Kind
  | branch cond _ _ => branch cond a b
  | whileTrue _ => whileTrue a
  | rangeFor bound serial _ => rangeFor bound serial a
  | vertexFor _ => vertexFor a
  | fragmentFor _ => fragmentFor a
  | kind => kind

/-- What a header shows of a kind. -/
def shown (kind : Kind) : Kind := kind.erased.withBlocks 0 0

/-- What is left out has no operands. -/
theorem operands_erased (kind : Kind) : kind.erased.operands = kind.operands := by
  cases kind with
  | rangeFor bound => cases bound <;> rfl
  | _ => rfl

/-- What is shown owns as many blocks. -/
theorem length_childBlocks_shown (kind : Kind) :
    kind.shown.childBlocks.length = kind.childBlocks.length := by
  cases kind <;> rfl

/-- What is shown of a kind and the blocks it owns make up the kind. -/
theorem erased_eq (kind : Kind) : kind.erased =
    kind.shown.withBlocks (kind.childBlocks.getD 0 0) (kind.childBlocks.getD 1 0) := by
  cases kind <;> rfl

end Kind

namespace Reader

variable {rest : List Char}

/-! ## Forms of arguments -/

/-- A reference. -/
def ofRef (make : StmtId → Kind) : Reader Kind := do
  return make (← ref)

/-- Two references. -/
def ofRefs (make : StmtId → StmtId → Kind) : Reader Kind := do
  let x ← ref
  skip " "
  return make x (← ref)

/-- A type. -/
def ofPrim (make : Prim → Kind) : Reader Kind := do
  return make (← prim)

/-- A type and a number after a mark. -/
def ofPrimNumber (mark : String) (make : Prim → Nat → Kind) : Reader Kind := do
  let ty ← prim
  skip mark
  return make ty (← number)

/-- A type and a literal. -/
noncomputable def const : Reader Kind := do
  let ty ← prim
  skip " "
  let literal ← word
  return .const (if ty = .i32 then .i32 (Int32.ofInt (Binary32.signed literal.toList))
    else .f32 (Binary32.ofText literal))

/-- The bound of a range-for. -/
def bound : Reader RangeBound := do
  if ← flag "%" then return .value (← number)
  skip "field"
  return .field (.numbered (← number))

/-- A range-for. -/
def rangeFor : Reader Kind := do
  let bound ← bound
  return .rangeFor bound (← flag " serial") 0

/-- A pointer into a field. -/
def globalPtr : Reader Kind := do
  skip "field"
  let field ← number
  let indices ← refs
  skip " +"
  return .globalPtr (.numbered field) indices (← number)

/-- A vertex output. -/
def vertexOutput : Reader Kind := do
  let v ← ref
  skip " @"
  return .vertexOutput v (← number)

/-- A builtin input. -/
def builtinInput : Reader Kind := do
  return .builtinInput (← named [.vertexIndex, .instanceIndex, .fragCoord] BuiltinInput.name)

/-- What is output, and where. -/
def output : Reader BuiltinOutput := do
  if ← flag "position " then return .position (← quad)
  if ← flag "frag_depth " then return .fragDepth (← single)
  skip "color@"
  let location ← number
  skip " "
  return .color location (← quad)

/-- A builtin output. -/
def builtinOutput : Reader Kind := do
  return .builtinOutput (← output)

/-- A texture, its coordinates and what the access adds. -/
def texture (access : Reader TextureAccess) : Reader Kind := do
  skip "texture"
  let id ← number
  skip " "
  let coords ← refs
  return .texture (← access) (.numbered id) coords

/-- The level of a sample. -/
def sampleLod : Reader TextureAccess := do
  skip " "
  return .sampleLod (← single)

/-- The texel of a store. -/
def store : Reader TextureAccess := do
  skip " "
  return .store (← quad)

/-- A component of a vector. -/
def extract : Reader Kind := do
  let composite ← ref
  skip "."
  return .extract composite (← number)

/-- A return. -/
def ret : Reader Kind := do
  return .ret (← refs)

/-! ## Keywords -/

/-- Keywords that nothing follows. -/
def bareForms : List (String × Kind) :=
  [("while", .whileTrue 0), ("break", .exitLoop), ("continue", .nextIteration),
    ("vertex_for", .vertexFor 0), ("fragment_for", .fragmentFor 0), ("discard", .discard)]

/-- Keywords that one reference follows. -/
def refForms : List (String × (StmtId → Kind)) :=
  [("loop_index", .loopIndex), ("if", fun cond => .branch cond 0 0), ("local_load", .localLoad),
    ("global_load", .globalLoad), ("global_temporary_load", .temporaryLoad),
    ("atomic_load", .atomicLoad)] ++
  [Axis.x, .y].map (fun axis => (axis.derivative, .derivative axis)) ++
  UnaryOp.all.map fun op => (op.name, .unary op)

/-- Keywords that two references follow. -/
def pairForms : List (String × (StmtId → StmtId → Kind)) :=
  [("local_store", .localStore), ("global_store", .globalStore),
    ("global_temporary_store", .temporaryStore), ("atomic_store", .atomicStore)] ++
  AtomicOp.all.map (fun op => ("atomic_" ++ op.name, .atomic op)) ++
  BinaryOp.all.map fun op => (op.name, .binary op)

/-- Keywords that a type follows. -/
def primForms : List (String × (Prim → Kind)) := [("rand", .rand), ("alloca", .alloca)]

/-- Keywords that a type and a marked number follow. -/
def numberForms : List (String × String × (Prim → Nat → Kind)) :=
  [("arg_load", " #", .argLoad), ("global_temporary", " @", .temporary),
    ("vertex_input", " @", .vertexInput), ("fragment_input", " @", .fragmentInput)]

/-- Keywords of texture accesses, and how to read what they add. -/
def textureForms : List (String × Reader TextureAccess) :=
  [("texture_sample", pure .sample), ("texture_sample_lod", sampleLod),
    ("texture_load", pure .load), ("texture_store", store)]

/-- Keywords with arguments, and how to read these. -/
noncomputable def forms : List (String × Reader Kind) :=
  refForms.map (fun form => (form.1, ofRef form.2)) ++
  pairForms.map (fun form => (form.1, ofRefs form.2)) ++
  primForms.map (fun form => (form.1, ofPrim form.2)) ++
  numberForms.map (fun form => (form.1, ofPrimNumber form.2.1 form.2.2)) ++
  textureForms.map (fun form => (form.1, texture form.2)) ++
  [("const", const), ("range_for", rangeFor), ("global_ptr", globalPtr),
    ("vertex_output", vertexOutput), ("builtin_input", builtinInput),
    ("builtin_output", builtinOutput), ("extract", extract), ("return", ret)]

/-- How to read on after a keyword. -/
noncomputable def grammar : List (String × Reader Kind) :=
  bareForms.map (fun form => (form.1, pure form.2)) ++
  forms.map fun form => (form.1, do skip " "; form.2)

/-- The first word of a text as a number.  Numbers are compared faster than words. -/
def wordCode (cs : List Char) : Nat :=
  (cs.takeWhile (· != ' ')).foldl (fun n c => 256 * n + c.toNat) 0

theorem wordCode_append (cs : List Char) (hrest : Stops (· != ' ') rest) :
    wordCode (cs ++ rest) = wordCode cs := by
  have htake : (cs ++ rest).takeWhile (· != ' ') = cs.takeWhile (· != ' ') := by
    have hnone : ([] ++ rest).takeWhile (· != ' ') = [] := (span_append (by simp) hrest).1
    rw [nil_append] at hnone
    rw [takeWhile_append, hnone, append_nil]
    split
    · rename_i hlength
      exact (( takeWhile_prefix _).eq_of_length hlength).symm
    · rfl
  rw [wordCode, wordCode, htake]

set_option maxRecDepth 10000 in
/-- **No two forms have the same keyword.** -/
theorem nodup_keywords : (grammar.map fun form => wordCode form.1.toList).Nodup := by
  decide +kernel

/-! ## Every description is in a form -/

/-- What may follow a description. -/
def Ends (tail : List Char) : Prop := tail = [] ∨ tail = " \x7b".toList

/-- The description is a keyword with arguments, and reads as the kind that is shown. -/
def Spelled (kind : Kind) : Prop :=
  ∃ (word : String) (form : Reader Kind) (args : List Char), (word, form) ∈ grammar ∧
    kind.describe.toList = word.toList ++ args ∧ ∀ tail, Ends tail →
      Stops (· != ' ') (args ++ tail) ∧ form.run (args ++ tail) = some (kind.shown, tail)

variable {kind : Kind} {w : String} {tail : List Char}

theorem Ends.blank (h : Ends tail) : Stops (· != ' ') tail := by
  rcases h with rfl | rfl <;> simp [Stops]

theorem Ends.digit (h : Ends tail) : Stops Char.isDigit tail := by
  rcases h with rfl | rfl <;> simp [Stops]

theorem stops_blank (cs : List Char) : Stops (· != ' ') (" ".toList ++ cs) := by simp [Stops]

theorem spelled_bare {k : Kind} (hform : (w, k) ∈ bareForms) (htext : kind.describe = w)
    (hshown : kind.shown = k) : Spelled kind := by
  refine ⟨w, _, [], mem_append_left _ (mem_map_of_mem hform), ?_, fun tail h => ?_⟩
  · rw [htext, append_nil]
  · rw [hshown]
    exact ⟨h.blank, rfl⟩

theorem spelled_args {form : Reader Kind} (args : String) (hform : (w, form) ∈ forms)
    (htext : kind.describe = w ++ (" " ++ args))
    (hread : ∀ tail, Ends tail → form.run (args.toList ++ tail) = some (kind.shown, tail)) :
    Spelled kind := by
  refine ⟨w, _, " ".toList ++ args.toList, mem_append_right _ (mem_map_of_mem hform), ?_,
    fun tail h => ?_⟩
  · rw [htext, String.toList_append, String.toList_append]
  · rw [List.append_assoc, run_bind (run_skip " "), hread tail h]
    exact ⟨stops_blank _, rfl⟩

theorem spelled_ref {f : StmtId → Kind} {i : StmtId} (hform : (w, f) ∈ refForms)
    (htext : kind.describe = w ++ " " ++ stmtRef i) (hshown : kind.shown = f i) :
    Spelled kind := by
  have hmem : (w, ofRef f) ∈ forms := by
    simp only [forms, mem_append]
    exact .inl (.inl (.inl (.inl (.inl (mem_map_of_mem hform)))))
  refine spelled_args (stmtRef i) hmem (by rw [htext, String.append_assoc]) fun tail h => ?_
  rw [ofRef, run_bind (run_ref i h.digit), hshown]
  rfl

theorem spelled_pair {f : StmtId → StmtId → Kind} {i j : StmtId}
    (hform : (w, f) ∈ pairForms)
    (htext : kind.describe = w ++ " " ++ stmtRef i ++ " " ++ stmtRef j)
    (hshown : kind.shown = f i j) : Spelled kind := by
  have hmem : (w, ofRefs f) ∈ forms := by
    simp only [forms, mem_append]
    exact .inl (.inl (.inl (.inl (.inr (mem_map_of_mem hform)))))
  refine spelled_args (stmtRef i ++ (" " ++ stmtRef j)) hmem
    (by simp only [htext, String.append_assoc]) fun tail h => ?_
  simp only [String.toList_append, List.append_assoc]
  rw [ofRefs, run_bind (run_ref i (by simp [Stops])), run_bind (run_skip " "),
    run_bind (run_ref j h.digit), hshown]
  rfl

theorem spelled_prim {f : Prim → Kind} {ty : Prim} (hform : (w, f) ∈ primForms)
    (htext : kind.describe = w ++ " " ++ ty.name) (hshown : kind.shown = f ty) :
    Spelled kind := by
  have hmem : (w, ofPrim f) ∈ forms := by
    simp only [forms, mem_append]
    exact .inl (.inl (.inl (.inr (mem_map_of_mem hform))))
  refine spelled_args ty.name hmem (by rw [htext, String.append_assoc]) fun tail h => ?_
  rw [ofPrim, run_bind (run_prim ty h.blank), hshown]
  rfl

theorem spelled_number {m : String} {f : Prim → Nat → Kind} {ty : Prim} {n : Nat}
    (hform : (w, m, f) ∈ numberForms)
    (htext : kind.describe = w ++ " " ++ ty.name ++ m ++ n.repr)
    (hshown : kind.shown = f ty n) : Spelled kind := by
  have hmem : (w, ofPrimNumber m f) ∈ forms := by
    simp only [forms, mem_append]
    exact .inl (.inl (.inr (mem_map_of_mem hform)))
  have hmark (cs : List Char) : Stops (· != ' ') (m.toList ++ cs) := by
    simp only [numberForms, mem_cons, not_mem_nil, or_false, Prod.mk.injEq] at hform
    rcases hform with ⟨-, rfl, -⟩ | ⟨-, rfl, -⟩ | ⟨-, rfl, -⟩ | ⟨-, rfl, -⟩ <;> simp [Stops]
  refine spelled_args (ty.name ++ (m ++ n.repr)) hmem
    (by simp only [htext, String.append_assoc]) fun tail h => ?_
  simp only [String.toList_append, List.append_assoc]
  rw [ofPrimNumber, run_bind (run_prim ty (hmark _)), run_bind (run_skip m),
    run_bind (run_number n h.digit), hshown]
  rfl

theorem spelled_const (c : Const) : Spelled (.const c) := by
  have hmem : ("const", const) ∈ forms := mem_append_right _ (by simp)
  cases c with
  | i32 v =>
    have hliteral : ' ' ∉ v.toInt.repr.toList := not_mem_of_isNumeric (isNumeric_int _) (by decide)
    refine spelled_args (Prim.i32.name ++ (" " ++ v.toInt.repr)) hmem ?_ fun tail h => ?_
    · simp only [← String.append_assoc]
      rfl
    · simp only [String.toList_append, List.append_assoc]
      rw [const, run_bind (run_prim .i32 (stops_blank _)), run_bind (run_skip " "),
        run_bind (run_word hliteral h.blank), if_pos rfl, Binary32.signed_repr, Int32.ofInt_toInt]
      rfl
  | f32 bits =>
    have hliteral : ' ' ∉ (Binary32.text bits).toList :=
      not_mem_of_isNumeric (Binary32.isNumeric_text bits) (by decide)
    refine spelled_args (Prim.f32.name ++ (" " ++ Binary32.text bits)) hmem ?_ fun tail h => ?_
    · simp only [← String.append_assoc]
      rfl
    · simp only [String.toList_append, List.append_assoc]
      rw [const, run_bind (run_prim .f32 (stops_blank _)), run_bind (run_skip " "),
        run_bind (run_word hliteral h.blank), if_neg (by decide), Binary32.ofText_text]
      rfl

/-- Bounds read back. -/
theorem run_bound (b : RangeBound) (hrest : Stops Char.isDigit rest) :
    bound.run (b.describe.toList ++ rest) = some (b.erased, rest) := by
  cases b with
  | value v =>
    change bound.run ((stmtRef v).toList ++ rest) = _
    rw [toList_stmtRef, List.append_assoc, bound, run_bind (run_flag "%"), if_pos rfl,
      run_bind (run_number v hrest)]
    rfl
  | field f =>
    have htext : (RangeBound.field f).describe.toList = "field".toList ++ f.id.repr.toList :=
      String.toList_append
    have hflag : (flag "%").run ("field".toList ++ (f.id.repr.toList ++ rest)) =
        some (false, "field".toList ++ (f.id.repr.toList ++ rest)) := by
      simp [flag, StateT.run]
    rw [htext, List.append_assoc, bound, run_bind hflag, if_neg Bool.false_ne_true,
      run_bind (run_skip "field"), run_bind (run_number f.id hrest)]
    rfl

theorem spelled_rangeFor (b : RangeBound) (serial : Bool) (body : BlockId) :
    Spelled (.rangeFor b serial body) := by
  have hmem : ("range_for", rangeFor) ∈ forms := mem_append_right _ (by simp)
  cases serial with
  | true =>
    refine spelled_args (b.describe ++ " serial") hmem ?_ fun tail h => ?_
    · simp only [← String.append_assoc]
      rfl
    · rw [String.toList_append, List.append_assoc, rangeFor,
        run_bind (run_bound b (by simp [Stops])), run_bind (run_flag " serial")]
      rfl
  | false =>
    have hflag {tail : List Char} (h : Ends tail) :
        (flag " serial").run tail = some (false, tail) := by
      rcases h with rfl | rfl <;> simp [flag, StateT.run]
    refine spelled_args b.describe hmem ?_ fun tail h => ?_
    · rw [← String.append_assoc]
      exact String.append_empty
    · rw [rangeFor, run_bind (run_bound b h.digit), run_bind (hflag h)]
      rfl

theorem spelled_globalPtr (field : Field) (indices : List StmtId) (offset : Nat) :
    Spelled (.globalPtr field indices offset) := by
  refine spelled_args ("field" ++ (field.id.repr ++ (stmtRefs indices ++ (" +" ++ offset.repr))))
    (mem_append_right _ (by simp) : ("global_ptr", globalPtr) ∈ forms) ?_ fun tail h => ?_
  · simp only [← String.append_assoc]
    rfl
  · simp only [String.toList_append, List.append_assoc]
    rw [globalPtr, run_bind (run_skip "field"), run_bind (run_number field.id (stops_refs _ _)),
      run_bind (run_refs indices), run_bind (run_skip " +"), run_bind (run_number offset h.digit)]
    rfl

theorem spelled_vertexOutput (v : StmtId) (location : Nat) :
    Spelled (.vertexOutput v location) := by
  refine spelled_args (stmtRef v ++ (" @" ++ location.repr))
    (mem_append_right _ (by simp) : ("vertex_output", vertexOutput) ∈ forms) ?_
    fun tail h => ?_
  · simp only [← String.append_assoc]
    rfl
  · simp only [String.toList_append, List.append_assoc]
    rw [vertexOutput, run_bind (run_ref v (by simp [Stops])), run_bind (run_skip " @"),
      run_bind (run_number location h.digit)]
    rfl

theorem spelled_builtinInput (input : BuiltinInput) : Spelled (.builtinInput input) := by
  refine spelled_args input.name
    (mem_append_right _ (by simp) : ("builtin_input", builtinInput) ∈ forms) ?_
    fun tail h => ?_
  · rw [← String.append_assoc]
    rfl
  · have hname : ' ' ∉ input.name.toList := by cases input <;> decide
    have hfind : [BuiltinInput.vertexIndex, .instanceIndex, .fragCoord].find?
        (·.name == input.name) = some input := by cases input <;> rfl
    rw [builtinInput, run_bind (run_named hfind hname h.blank)]
    rfl

/-- Outputs read back. -/
theorem run_output (o : BuiltinOutput) :
    output.run (o.describe.toList ++ rest) = some (o, rest) := by
  cases o with
  | position q =>
    have htext : (BuiltinOutput.position q).describe.toList =
        "position ".toList ++ (stmtRefs q.toList).toList := String.toList_append
    rw [htext, List.append_assoc, output, run_bind (run_flag "position "), if_pos rfl,
      run_bind (run_quad q)]
    rfl
  | fragDepth v =>
    have htext : (BuiltinOutput.fragDepth v).describe.toList =
        "frag_depth ".toList ++ (stmtRefs [v]).toList := String.toList_append
    have hposition (cs : List Char) : (flag "position ").run ("frag_depth ".toList ++ cs) =
        some (false, "frag_depth ".toList ++ cs) := by
      simp [flag, StateT.run]
    rw [htext, List.append_assoc, output, run_bind (hposition _), if_neg Bool.false_ne_true,
      run_bind (run_flag "frag_depth "), if_pos rfl, run_bind (run_single v)]
    rfl
  | color location q =>
    have htext : (BuiltinOutput.color location q).describe.toList = "color@".toList ++
        (location.repr.toList ++ (" ".toList ++ (stmtRefs q.toList).toList)) := by
      change ("color@" ++ location.repr ++ " " ++ stmtRefs q.toList).toList = _
      simp only [String.toList_append, List.append_assoc]
    have hposition (cs : List Char) : (flag "position ").run ("color@".toList ++ cs) =
        some (false, "color@".toList ++ cs) := by
      simp [flag, StateT.run]
    have hdepth (cs : List Char) : (flag "frag_depth ").run ("color@".toList ++ cs) =
        some (false, "color@".toList ++ cs) := by
      simp [flag, StateT.run]
    simp only [htext, List.append_assoc]
    rw [output, run_bind (hposition _), if_neg Bool.false_ne_true, run_bind (hdepth _),
      if_neg Bool.false_ne_true, run_bind (run_skip "color@"),
      run_bind (run_number location (by simp [Stops])), run_bind (run_skip " "),
      run_bind (run_quad q)]
    rfl

theorem spelled_builtinOutput (o : BuiltinOutput) : Spelled (.builtinOutput o) := by
  refine spelled_args o.describe
    (mem_append_right _ (by simp) : ("builtin_output", builtinOutput) ∈ forms) ?_
    fun tail h => ?_
  · rw [← String.append_assoc]
    rfl
  · rw [builtinOutput, run_bind (run_output o)]
    rfl

/-- What an access shows after the coordinates. -/
def added (access : TextureAccess) : String :=
  if access.operands = [] then "" else " " ++ stmtRefs access.operands

/-- Texture accesses read back. -/
theorem spelled_texture {access : TextureAccess} {form : Reader TextureAccess} (tex : Texture)
    (coords : List StmtId) (hform : (access.name, form) ∈ textureForms)
    (hread : ∀ tail, form.run ((added access).toList ++ tail) = some (access, tail)) :
    Spelled (.texture access tex coords) := by
  have hmem : (access.name, texture form) ∈ forms := by
    simp only [forms, mem_append]
    exact .inl (.inr (mem_map_of_mem hform))
  refine spelled_args
    ("texture" ++ (tex.id.repr ++ (" " ++ (stmtRefs coords ++ added access)))) hmem ?_
    fun tail h => ?_
  · have hlead : " texture" = " " ++ "texture" := rfl
    change access.name ++ " texture" ++ tex.id.repr ++ " " ++ stmtRefs coords ++ added access = _
    simp only [hlead, String.append_assoc]
  · simp only [String.toList_append, List.append_assoc]
    rw [texture, run_bind (run_skip "texture"), run_bind (run_number tex.id (by simp [Stops])),
      run_bind (run_skip " "), run_bind (run_refs coords), run_bind (hread tail)]
    rfl

theorem spelled_extract (composite : StmtId) (index : Nat) :
    Spelled (.extract composite index) := by
  refine spelled_args (stmtRef composite ++ ("." ++ index.repr))
    (mem_append_right _ (by simp) : ("extract", extract) ∈ forms) ?_ fun tail h => ?_
  · simp only [← String.append_assoc]
    rfl
  · simp only [String.toList_append, List.append_assoc]
    rw [extract, run_bind (run_ref composite (by simp [Stops])), run_bind (run_skip "."),
      run_bind (run_number index h.digit)]
    rfl

theorem run_sampleLod (level : StmtId) :
    sampleLod.run ((added (.sampleLod level)).toList ++ rest) = some (.sampleLod level, rest) := by
  have htext : (added (.sampleLod level)).toList = " ".toList ++ (stmtRefs [level]).toList :=
    String.toList_append
  rw [htext, List.append_assoc, sampleLod, run_bind (run_skip " "), run_bind (run_single level)]
  rfl

theorem run_store (texel : Quad) :
    store.run ((added (.store texel)).toList ++ rest) = some (.store texel, rest) := by
  have htext : (added (.store texel)).toList = " ".toList ++ (stmtRefs texel.toList).toList :=
    String.toList_append
  rw [htext, List.append_assoc, store, run_bind (run_skip " "), run_bind (run_quad texel)]
  rfl

theorem spelled_ret (values : List StmtId) : Spelled (.ret values) := by
  refine spelled_args (stmtRefs values)
    (mem_append_right _ (by simp) : ("return", ret) ∈ forms) ?_ fun tail h => ?_
  · rw [← String.append_assoc]
    rfl
  · rw [ret, run_bind (run_refs values)]
    rfl

theorem spelled_unary (op : UnaryOp) (x : StmtId) : Spelled (.unary op x) := by
  have hall : op ∈ UnaryOp.all := by cases op <;> decide
  exact spelled_ref (mem_append_right _ (mem_map.2 ⟨op, hall, rfl⟩)) rfl rfl

theorem spelled_binary (op : BinaryOp) (x y : StmtId) : Spelled (.binary op x y) := by
  have hall : op ∈ BinaryOp.all := by cases op <;> decide
  exact spelled_pair (mem_append_right _ (mem_map.2 ⟨op, hall, rfl⟩)) rfl rfl

theorem spelled_atomic (op : AtomicOp) (x y : StmtId) : Spelled (.atomic op x y) := by
  have hall : op ∈ AtomicOp.all := by cases op <;> decide
  exact spelled_pair (mem_append_left _ (mem_append_right _ (mem_map.2 ⟨op, hall, rfl⟩))) rfl rfl

theorem spelled_derivative (axis : Axis) (x : StmtId) : Spelled (.derivative axis x) := by
  have hall : axis ∈ [Axis.x, .y] := by cases axis <;> decide
  exact spelled_ref (mem_append_left _ (mem_append_right _ (mem_map.2 ⟨axis, hall, rfl⟩))) rfl rfl

/-- **Every description can be read back.** -/
theorem spelled (kind : Kind) : Spelled kind := by
  cases kind with
  | const c => exact spelled_const c
  | loopIndex => exact spelled_ref (w := "loop_index") (by simp [refForms]) rfl rfl
  | argLoad => exact spelled_number (w := "arg_load") (m := " #") (by simp [numberForms]) rfl rfl
  | rand => exact spelled_prim (w := "rand") (by simp [primForms]) rfl rfl
  | unary op x => exact spelled_unary op x
  | binary op x y => exact spelled_binary op x y
  | branch =>
    exact spelled_ref (w := "if") (f := fun cond => .branch cond 0 0) (by simp [refForms]) rfl rfl
  | whileTrue => exact spelled_bare (w := "while") (k := .whileTrue 0) (by simp [bareForms]) rfl rfl
  | exitLoop => exact spelled_bare (w := "break") (k := .exitLoop) (by simp [bareForms]) rfl rfl
  | nextIteration =>
    exact spelled_bare (w := "continue") (k := .nextIteration) (by simp [bareForms]) rfl rfl
  | rangeFor b serial body => exact spelled_rangeFor b serial body
  | vertexFor =>
    exact spelled_bare (w := "vertex_for") (k := .vertexFor 0) (by simp [bareForms]) rfl rfl
  | fragmentFor =>
    exact spelled_bare (w := "fragment_for") (k := .fragmentFor 0) (by simp [bareForms]) rfl rfl
  | alloca => exact spelled_prim (w := "alloca") (by simp [primForms]) rfl rfl
  | localLoad => exact spelled_ref (w := "local_load") (by simp [refForms]) rfl rfl
  | localStore => exact spelled_pair (w := "local_store") (by simp [pairForms]) rfl rfl
  | globalPtr field indices offset => exact spelled_globalPtr field indices offset
  | globalLoad => exact spelled_ref (w := "global_load") (by simp [refForms]) rfl rfl
  | globalStore => exact spelled_pair (w := "global_store") (by simp [pairForms]) rfl rfl
  | temporary =>
    exact spelled_number (w := "global_temporary") (m := " @") (by simp [numberForms]) rfl rfl
  | temporaryLoad => exact spelled_ref (w := "global_temporary_load") (by simp [refForms]) rfl rfl
  | temporaryStore =>
    exact spelled_pair (w := "global_temporary_store") (by simp [pairForms]) rfl rfl
  | atomic op dest v => exact spelled_atomic op dest v
  | atomicLoad => exact spelled_ref (w := "atomic_load") (by simp [refForms]) rfl rfl
  | atomicStore => exact spelled_pair (w := "atomic_store") (by simp [pairForms]) rfl rfl
  | vertexInput =>
    exact spelled_number (w := "vertex_input") (m := " @") (by simp [numberForms]) rfl rfl
  | vertexOutput v location => exact spelled_vertexOutput v location
  | fragmentInput =>
    exact spelled_number (w := "fragment_input") (m := " @") (by simp [numberForms]) rfl rfl
  | builtinInput input => exact spelled_builtinInput input
  | builtinOutput o => exact spelled_builtinOutput o
  | derivative axis x => exact spelled_derivative axis x
  | discard => exact spelled_bare (w := "discard") (k := .discard) (by simp [bareForms]) rfl rfl
  | texture access tex coords =>
    cases access with
    | sample => exact spelled_texture tex coords (.head _) fun _ => rfl
    | sampleLod => exact spelled_texture tex coords (.tail _ (.head _)) fun _ => run_sampleLod _
    | load => exact spelled_texture tex coords (.tail _ (.tail _ (.head _))) fun _ => rfl
    | store =>
      exact spelled_texture tex coords (.tail _ (.tail _ (.tail _ (.head _)))) fun _ => run_store _
  | extract composite index => exact spelled_extract composite index
  | ret values => exact spelled_ret values

/-- **Equal descriptions show equal kinds.** -/
theorem shown_of_describe_eq {kind' : Kind} {tail' : List Char} (h : Ends tail) (h' : Ends tail')
    (heq : kind.describe.toList ++ tail = kind'.describe.toList ++ tail') :
    kind.shown = kind'.shown := by
  obtain ⟨word, form, args, hmem, htext, hread⟩ := spelled kind
  obtain ⟨word', form', args', hmem', htext', hread'⟩ := spelled kind'
  obtain ⟨hstops, hrun⟩ := hread tail h
  obtain ⟨hstops', hrun'⟩ := hread' tail' h'
  rw [htext, htext', List.append_assoc, List.append_assoc] at heq
  -- The first words agree, hence the forms, and one form reads both texts.
  have hword : wordCode word.toList = wordCode word'.toList := by
    rw [← wordCode_append word.toList hstops, heq, wordCode_append word'.toList hstops']
  obtain ⟨rfl, rfl⟩ := Prod.mk.inj (inj_on_of_nodup_map nodup_keywords hmem hmem' hword)
  rw [append_cancel_left heq, hrun'] at hrun
  exact (Prod.mk.inj (Option.some.inj hrun)).1.symm

end Reader

/-- The number of a statement is read off its header. -/
theorem Stmt.run_header (s : Stmt) : ∃ tail, Reader.Ends tail ∧ Reader.ref.run s.header.toList =
    some (s.id, " = ".toList ++ (s.kind.describe.toList ++ tail)) := by
  refine ⟨(if s.kind.childBlocks = [] then "" else " \x7b").toList, ?_, ?_⟩
  · split
    · exact .inl rfl
    · exact .inr rfl
  · change Reader.ref.run (stmtRef s.id ++ " = " ++ s.kind.describe ++ _).toList = _
    simp only [String.toList_append, List.append_assoc]
    exact Reader.run_ref s.id (by simp [Reader.Stops])

/-- **Equal headers show equal statements.** -/
theorem Stmt.shown_of_header_eq {s s' : Stmt} (h : s.header = s'.header) :
    s.id = s'.id ∧ s.kind.shown = s'.kind.shown := by
  obtain ⟨tail, hends, hrun⟩ := s.run_header
  obtain ⟨tail', hends', hrun'⟩ := s'.run_header
  rw [h, hrun', Option.some.injEq, Prod.mk.injEq] at hrun
  exact ⟨hrun.1.symm, (Reader.shown_of_describe_eq hends' hends (append_cancel_left hrun.2)).symm⟩

end WgslKernel
