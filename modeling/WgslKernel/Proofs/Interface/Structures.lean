import WgslKernel.Proofs.Interface.Text

/-!
# The stage interface in the text of a shader

The text of a shader is a row of pieces.  `Piece L found` says what a piece has to do with the
interface: `found` are the stage structures that it declares, and everything that it takes from the
two is a member of `L`.  A structure reads as its members in their order.
-/

namespace WgslKernel

open List

variable {L : StageLayout} {a b : String} {found more : List (String × List String)}

/-! ## Pieces of a shader -/

/-- Structures of the stage interface. -/
def isStageStruct (s : String × List String) : Bool := s.1 == "StageInput" || s.1 == "StageOutput"

/-- The structures that are declared for the stage interface. -/
def stageStructs (ts : List String) : List (String × List String) :=
  (structs ts).filter isStageStruct

/-- A piece of a shader: it declares `found` and takes members of the layout; another may follow. -/
structure Piece (L : StageLayout) (found : List (String × List String)) (text : String) : Prop where
  ends : endsWord text = false
  inputs : Heeds "stage_input" (L.inputs.map fun m => m.name.text) (tokens text)
  outputs : Heeds "stage_output" (L.outputs.map fun m => m.name.text) (tokens text)
  structs : ∀ rest, stageStructs (tokens text ++ rest) = found ++ stageStructs rest

/-- Pieces follow each other. -/
theorem Piece.append (ha : Piece L found a) (hb : Piece L more b) :
    Piece L (found ++ more) (a ++ b) := by
  have htokens := tokens_append (a := a) (b := b) (.inl ha.ends)
  refine ⟨endsWord_append ha.ends hb.ends, ?_, ?_, fun rest => ?_⟩
  · rw [htokens]
    exact ha.inputs.append hb.inputs
  · rw [htokens]
    exact ha.outputs.append hb.outputs
  · rw [htokens, List.append_assoc, ha.structs, hb.structs, List.append_assoc]

theorem Settled.piece (h : Settled L a) : Piece L [] a :=
  ⟨h.2, h.1.inputs, h.1.outputs, fun rest => by
    rw [stageStructs, structs_append_of_not_mem h.1.unstructured]
    rfl⟩

/-- What is declared in a piece that stands alone. -/
theorem Piece.stageStructs_eq (h : Piece L found a) : stageStructs (tokens a) = found := by
  have hstructs := h.structs []
  rw [append_nil] at hstructs
  exact hstructs.trans (append_nil found)

theorem piece_join {texts : List String} (h : ∀ t ∈ texts, Piece L [] t) :
    Piece L [] (String.join texts) := by
  induction texts with
  | nil => exact Settled.piece ⟨calm_of_isPlainText (by decide), by decide⟩
  | cons t texts ih =>
    obtain ⟨ht, htexts⟩ := forall_mem_cons.1 h
    rw [String.join_cons]
    exact ht.append (ih htexts)

/-- Tokens that would end a structure, or that matter for the interface. -/
def special : List String := "\x7d" :: reserved

theorem not_special_of_isWord (h : isWord a = true) (hother : a ∉ reserved) : a ∉ special := by
  rw [special, mem_cons, not_or]
  refine ⟨?_, hother⟩
  rintro rfl
  cases h

theorem not_special_of_not_mem (hs : 's' ∉ a.toList) (hbrace : '\x7d' ∉ a.toList) :
    ∀ t ∈ tokens a, t ∉ special := by
  intro t ht hspecial
  have hchars : ∀ t ∈ special, 's' ∈ t.toList ∨ '\x7d' ∈ t.toList := by decide
  rcases hchars t hspecial with hc | hc
  · exact not_mem_tokens hc hs ht
  · exact not_mem_tokens hc hbrace ht

/-- A text that declares one structure. -/
theorem piece_struct {name : String} {body : List String} (hends : endsWord a = false)
    (htokens : tokens a = ["struct", name, "\x7b"] ++ body ++ ["\x7d"])
    (hname : name ∉ special) (hbody : ∀ t ∈ body, t ∉ special) :
    Piece L (if isStageStruct (name, body) then [(name, body)] else []) a := by
  have hnot {w : String} (hw : w ∈ special) : w ∉ name :: body := by
    rw [mem_cons, not_or]
    exact ⟨fun heq => hname (heq ▸ hw), fun hmem => hbody w hmem hw⟩
  have hheeds {base : String} {names : List String} (hbase : base ∈ special)
      (hother : base ∉ ["struct", "\x7b", "\x7d"]) : Heeds base names (tokens a) := by
    refine heeds_of_not_mem ?_
    have hnone := hnot hbase
    simp only [htokens, mem_append, mem_cons, not_mem_nil, or_false, not_or]
      at hother hnone ⊢
    exact ⟨⟨⟨hother.1, hnone.1, hother.2.1⟩, hnone.2⟩, hother.2.2⟩
  refine ⟨hends, hheeds (by decide) (by decide), hheeds (by decide) (by decide), fun rest => ?_⟩
  have hstruct := hnot (w := "struct") (by decide)
  have hclose := hnot (w := "\x7d") (by decide)
  rw [mem_cons, not_or] at hstruct hclose
  rw [stageStructs, htokens, structs_struct (Ne.symm hstruct.1) hstruct.2 hclose.2, filter_cons]
  split <;> rfl

/-! ## Members -/

/-- How the place of a member is written. -/
def MemberSlot.wiring : MemberSlot → List String
  | location n flat =>
    ["@", "location", "(", n.repr, ")"] ++
      if flat then ["@", "interpolate", "(", "flat", ")"] else []
  | builtin value => ["@", "builtin", "(", value.name, ")"]

/-- How a member is written in a structure: its wiring, its name and its type. -/
def StageMember.field (m : StageMember) : List String :=
  m.slot.wiring ++ [m.name.text, ":"] ++ tokens m.type.name

/-- **A declaration reads as the member** that it declares. -/
theorem StageMember.tokens_declaration (m : StageMember) : tokens m.declaration = m.field := by
  obtain ⟨name, type, slot⟩ := m
  have hmember {wiring : String} {ts : List String} (h : tokens wiring = ts) :
      tokens (wiring ++ " " ++ name.text ++ ": " ++ type.name) =
        ts ++ [name.text, ":"] ++ tokens type.name := by
    rw [tokens_between (by decide) (by decide) (by decide),
      tokens_between (by decide) (by decide) (by decide), h,
      tokens_word name.isWord_text name.text_ne_empty]
    simp [show tokens " " = [] by decide, show tokens ": " = [":"] by decide]
  have hlocation (n : Nat) {more : String} (hmore : opensWord more = false) :
      tokens ("@location(" ++ n.repr ++ more) =
        ["@", "location", "(", n.repr] ++ tokens more := by
    rw [tokens_append (.inr hmore), tokens_append (.inl (by decide)),
      tokens_word (isWord_repr n) (by simp)]
    rfl
  have hbuiltin (value : PipelineValue) : tokens ("@builtin(" ++ value.name ++ ")") =
      ["@", "builtin", "(", value.name, ")"] := by
    cases value <;> decide
  rcases slot with ⟨n, _ | _⟩ | value
  · exact hmember (hlocation n (by decide))
  · exact hmember (hlocation n (by decide))
  · exact hmember (hbuiltin value)

/-- Nothing special occurs in a member. -/
theorem StageMember.not_special_field (m : StageMember) : ∀ t ∈ m.field, t ∉ special := by
  have hrepr (n : Nat) : n.repr ∉ special := by
    refine not_special_of_isWord (isWord_repr n) (not_reserved_of_head fun hhead => ?_)
    exact not_mem_of_isNumeric (isNumeric_repr n) (by decide) (mem_of_mem_head? hhead)
  have hwiring : ∀ t ∈ m.slot.wiring, t ∉ special := by
    rcases m.slot with ⟨n, _ | _⟩ | value
    · simp +decide [MemberSlot.wiring, hrepr n]
    · simp +decide [MemberSlot.wiring, hrepr n]
    · cases value <;> decide
  have htype := not_special_of_not_mem (m.type.not_mem_name (.inl rfl))
    (m.type.not_mem_name (.inr rfl))
  have hname : m.name.text ∉ special :=
    not_special_of_isWord m.name.isWord_text (not_reserved_of_head m.name.head_text)
  refine forall_mem_append.2 ⟨forall_mem_append.2 ⟨hwiring, ?_⟩, htype⟩
  exact forall_mem_cons.2 ⟨hname, by decide⟩

/-- The structure for some members, each followed by a comma; there is none without members. -/
def structOf (name : String) (members : List StageMember) : List (String × List String) :=
  if members.isEmpty then [] else [(name, members.flatMap fun m => m.field ++ [","])]

/-- The members of a structure as tokens. -/
theorem tokens_members (members : List StageMember) :
    endsWord (String.join (members.map fun m => s!"    {m.declaration},\n")) = false ∧
      tokens (String.join (members.map fun m => s!"    {m.declaration},\n")) =
        members.flatMap fun m => m.field ++ [","] := by
  induction members with
  | nil => exact ⟨by decide, by decide⟩
  | cons m members ih =>
    have hends : endsWord ("    " ++ m.declaration ++ ",\n") = false :=
      endsWord_close (by decide) (by decide)
    have hmember : tokens ("    " ++ m.declaration ++ ",\n") = m.field ++ [","] := by
      rw [tokens_append (.inr (by decide)), tokens_append (.inl (by decide)), m.tokens_declaration]
      rfl
    rw [map_cons, String.join_cons, flatMap_cons, ← ih.2, ← hmember]
    exact ⟨endsWord_append hends ih.1, tokens_append (.inl hends)⟩

/-- **A stage structure lists its members in their order.** -/
theorem piece_structText {name : String} (hstage : name = "StageInput" ∨ name = "StageOutput")
    (members : List StageMember) :
    Piece L (structOf name members) (Shader.structText name members) := by
  unfold Shader.structText structOf
  split
  · exact Settled.piece ⟨calm_of_isPlainText (by decide), by decide⟩
  · obtain ⟨hends, htokens⟩ := tokens_members members
    have hhead : tokens s!"struct {name} \x7b\n" = ["struct", name, "\x7b"] ∧
        endsWord s!"struct {name} \x7b\n" = false ∧ name ∉ special := by
      rcases hstage with rfl | rfl <;> decide
    have hbody : ∀ t ∈ members.flatMap fun m => m.field ++ [","], t ∉ special := by
      intro t ht
      obtain ⟨m, -, ht⟩ := mem_flatMap.1 ht
      rcases mem_append.1 ht with ht | ht
      · exact m.not_special_field t ht
      · rw [mem_singleton.1 ht]
        decide
    have hall : tokens (s!"struct {name} \x7b\n" ++
        String.join (members.map fun m => s!"    {m.declaration},\n") ++ "\x7d\n\n") =
          ["struct", name, "\x7b"] ++ (members.flatMap fun m => m.field ++ [","]) ++ ["\x7d"] := by
      rw [tokens_append (.inr (by decide)), tokens_append (.inl hhead.2.1), hhead.1, htokens]
      rfl
    have hpiece := piece_struct (L := L) (endsWord_close (by decide) (by decide)) hall hhead.2.2
      hbody
    rcases hstage with rfl | rfl <;> exact hpiece

/-! ## The rest of a shader -/

/-- Textures that are written. -/
def Declaration.isStorage : Declaration → Bool
  | .handle (.storage ..) => true
  | _ => false

theorem Handle.calm_name {type : Handle} (h : (Declaration.handle type).isStorage = false) :
    Calm L type.name := by
  cases type with
  | sampler => exact calm_of_isPlainText (by decide)
  | sampled dim | depth dim => cases dim <;> exact calm_of_isPlainText (by decide)
  | storage dim format => cases h

theorem Resource.calm_name (r : Resource) : Calm L r.name :=
  Ident.calm_text (n := .resource r) rfl

/-- A buffer declares a structure for its words, with another name than those of the interface. -/
theorem piece_wordsText (r : Resource) (atomic : Bool) (length : Option Nat) :
    Piece L [] (Declarations.wordsText r.name (Declarations.arrayText atomic length)) := by
  have hname := not_special_of_isWord (isWord_wordsOf r) (not_reserved_of_last (by simp))
  have hother {x : String} (hx : x.toList.getLast? ≠ some 'e') : r.name ++ "_type" ≠ x := by
    rintro rfl
    simp at hx
  have harray : ∀ t ∈ tokens (Declarations.arrayText atomic length), t ∉ special := by
    have hrepr (n : Nat) : 's' ∉ n.repr.toList ∧ '\x7d' ∉ n.repr.toList :=
      ⟨not_mem_of_isNumeric (isNumeric_repr n) (by decide),
        not_mem_of_isNumeric (isNumeric_repr n) (by decide)⟩
    refine not_special_of_not_mem ?_ ?_ <;> cases atomic <;> cases length <;>
      simp_all [Declarations.arrayText, toString]
  have hpiece := piece_struct (L := L) (endsWord_close (by decide) (by decide))
    (Declarations.tokens_wordsText r _) hname
    (by simpa [or_imp, forall_and] using ⟨by decide, by decide, harray, by decide⟩)
  rwa [if_neg (by simp [isStageStruct, hother])] at hpiece

/-- Declarations of resources are no part of the interface. -/
theorem Global.piece {g : Global} (h : g.declaration.isStorage = false) : Piece L [] g.text := by
  obtain ⟨⟨r, slot⟩, declaration⟩ := g
  have hslot := calm_of_not_mem (L := L) (not_mem_of_isNumeric (isNumeric_repr slot) (by decide))
  have hstart : Calm L ("@group(0) @binding(" ++ slot.repr) := hslot.lead (by decide)
  cases declaration with
  | handle type =>
    have htext := ((hstart.between (s := ") var ") (by decide) r.calm_name).between (s := ": ")
      (by decide) (Handle.calm_name h)).tail (b := ";\n\n") (by decide)
    exact Settled.piece ⟨htext, endsWord_close (by decide) (by decide)⟩
  | buffer atomic length writable =>
    refine (piece_wordsText r atomic length).append (Settled.piece ?_)
    have haccess : Calm L (if writable then "read_write" else "read") := by
      split <;> exact calm_of_isPlainText (by decide)
    have htype : Calm L (r.name ++ "_type") :=
      calm_of_isWord (isWord_wordsOf r) (not_reserved_of_last (by simp))
    have htext := (((hstart.between (s := ") var<storage, ") (by decide) haccess).between
      (s := "> ") (by decide) r.calm_name).between (s := ": ") (by decide) htype).tail
      (b := ";\n\n") (by decide)
    refine ⟨?_, endsWord_close (by decide) (by decide)⟩
    have hsplit : "_type;\n\n" = "_type" ++ ";\n\n" := by decide
    simpa only [toString, hsplit, String.append_assoc] using htext

/-- The helpers start with a structure of six lines, and declare no other. -/
theorem piece_randomHelpers : Piece L [] randomHelpers := by
  obtain ⟨lines, htext, hends, htokens, hlines⟩ : ∃ lines : List String,
      randomHelpers = String.join (lines.map (· ++ "\n")) ∧
      endsWord (String.join ((lines.take 6).map (· ++ "\n"))) = false ∧
      tokens (String.join ((lines.take 6).map (· ++ "\n"))) =
        ["struct", "RandState", "\x7b"] ++ ["x", ":", "u32", ",", "y", ":", "u32", ",", "z", ":",
          "u32", ",", "w", ":", "u32", ","] ++ ["\x7d"] ∧
      ∀ l ∈ lines.drop 6, isPlainText l = true :=
    ⟨_, rfl, by decide +kernel, by decide +kernel, by decide +kernel⟩
  have hstate : Piece L [] (String.join ((lines.take 6).map (· ++ "\n"))) :=
    piece_struct hends htokens (by decide) (by decide)
  have hrest : Piece L [] (String.join ((lines.drop 6).map (· ++ "\n"))) := by
    refine piece_join fun t ht => ?_
    obtain ⟨l, hl, rfl⟩ := mem_map.1 ht
    exact Settled.piece ⟨(calm_of_isPlainText (hlines l hl)).tail (by decide),
      endsWord_close (by decide) (by decide)⟩
  rw [htext, ← take_append_drop 6 lines, map_append, String.join_append]
  exact hstate.append hrest

/-- The entry point declares no structure. -/
theorem piece_signatureText {s : Shader} (hstage : s.stage ≠ .compute) :
    Piece L [] s.signatureText := by
  have hparam : Calm L (if s.layout.inputs.isEmpty then "" else "stage_input: StageInput") := by
    split <;> exact calm_of_isPlainText (by decide)
  have hresult : Calm L (if s.layout.outputs.isEmpty then "" else "-> StageOutput ") := by
    split <;> exact calm_of_isPlainText (by decide)
  have hentry (start : String) (h : isPlainText start = true) :
      Piece L [] (start ++ "\nfn main(" ++
        (if s.layout.inputs.isEmpty then "" else "stage_input: StageInput") ++ ") " ++
        (if s.layout.outputs.isEmpty then "" else "-> StageOutput ") ++ "\x7b\n") :=
    Settled.piece ⟨(((calm_of_isPlainText h).between (by decide) hparam).between (by decide)
      hresult).tail (by decide), endsWord_close (by decide) (by decide)⟩
  unfold Shader.signatureText
  cases hs : s.stage with
  | compute => exact absurd hs hstage
  | vertex => exact hentry "@vertex" (by decide)
  | fragment => exact hentry "@fragment" (by decide)

/-- **The stage interface of a shader**: it declares its layout and takes nothing else. -/
theorem Shader.piece {s : Shader} (hstage : s.stage ≠ .compute)
    (hglobals : ∀ g ∈ s.globals, g.declaration.isStorage = false)
    (hprologue : s.prologue.Within s.layout) (hbody : s.body.Within s.layout) :
    Piece s.layout
      (structOf "StageInput" s.layout.inputs ++ structOf "StageOutput" s.layout.outputs)
      s.text := by
  have hfixed {x : String} (hx : isPlainText x = true) (hends : endsWord x = false) :
      Piece s.layout [] x := Settled.piece ⟨calm_of_isPlainText hx, hends⟩
  have hoptional {x : String} {c : Bool} (hx : Piece s.layout [] x) :
      Piece s.layout [] (if c then x else "") := by
    split
    · exact hx
    · exact hfixed (by decide) (by decide)
  have hresources : Piece s.layout [] (String.join (s.globals.map Global.text)) := by
    refine piece_join fun t ht => ?_
    obtain ⟨g, hg, rfl⟩ := mem_map.1 ht
    exact Global.piece (hglobals g hg)
  have hstructs := ((hresources.append (hoptional (c := s.random) piece_randomHelpers)).append
    (piece_structText (.inl rfl) s.layout.inputs)).append
    (piece_structText (.inr rfl) s.layout.outputs)
  have hopened := (hstructs.append (piece_signatureText hstage)).append
    (hoptional (x := "    var stage_output: StageOutput;\n") (c := s.returnsOutput)
      (hfixed (by decide) (by decide)))
  have hcode := (hopened.append (hprologue.settled 1).piece).append (hbody.settled 1).piece
  have hall := (hcode.append (hoptional (x := "    return stage_output;\n") (c := s.returnsOutput)
    (hfixed (by decide) (by decide)))).append (hfixed (x := "\x7d\n") (by decide) (by decide))
  simp only [nil_append, append_nil] at hall
  exact hall

end WgslKernel
