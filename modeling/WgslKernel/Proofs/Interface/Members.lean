import WgslKernel.Proofs.Access.Reach
import WgslKernel.Proofs.Bindings.Pairs
import WgslKernel.Proofs.Typing.Shapes

/-!
# Members of stage interfaces

Members are told apart by their names alone.  No two of them are wired to the same place, because
the name of a member is fixed by its place; and whether it is flat is fixed by its type, so members
at one location that agree in their types agree in everything.
-/

namespace WgslKernel

open List

/-! ## Names and places -/

/-- Where a member is wired: a numbered location, flat or not, or a value of the pipeline. -/
def MemberSlot.place : MemberSlot → Nat ⊕ PipelineValue
  | location n _ => .inl n
  | builtin value => .inr value

/-- The name of the input that is wired to a place. -/
def Stage.inputAt (stage : Stage) : Nat ⊕ PipelineValue → MemberName
  | .inl n => if stage = .vertex then .vertexAttribute n else .varying n
  | .inr .position => .fragCoord
  | .inr .vertexIndex => .vertexIndex
  | .inr .instanceIndex => .instanceIndex
  | .inr .fragDepth => .fragDepth

/-- The name of the output that is wired to a place. -/
def Stage.outputAt (stage : Stage) : Nat ⊕ PipelineValue → MemberName
  | .inl n => if stage = .vertex then .varying n else .color n
  | .inr .position => .position
  | .inr .vertexIndex => .vertexIndex
  | .inr .instanceIndex => .instanceIndex
  | .inr .fragDepth => .fragDepth

/-- A member is named after its place, and flat if it holds integers. -/
structure StageMember.Wired (nameAt : Nat ⊕ PipelineValue → MemberName) (m : StageMember) :
    Prop where
  name_eq : m.name = nameAt m.slot.place
  flat_eq : ∀ {n : Nat} {flat : Bool}, m.slot = .location n flat →
    flat = decide (m.type.scalar = .i32)

/-- Members of two structures that name a location alike are the same there, if their types are. -/
theorem StageMember.Wired.ext {nameAt nameAt' : Nat ⊕ PipelineValue → MemberName}
    {m m' : StageMember} {n : Nat} {flat flat' : Bool} (h : m.Wired nameAt) (h' : m'.Wired nameAt')
    (hname : nameAt (.inl n) = nameAt' (.inl n)) (hslot : m.slot = .location n flat)
    (hslot' : m'.slot = .location n flat') (htype : m.type = m'.type) : m = m' := by
  have hn := h.name_eq
  have hn' := h'.name_eq
  have hf := h.flat_eq hslot
  have hf' := h'.flat_eq hslot'
  rw [hslot] at hn
  rw [hslot'] at hn'
  rw [htype, ← hf'] at hf
  obtain ⟨name, type, slot⟩ := m
  obtain ⟨name', type', slot'⟩ := m'
  simp only [StageMember.mk.injEq] at *
  exact ⟨hn.trans (hname.trans hn'.symm), htype, by rw [hslot, hslot', hf]⟩

/-- The members of a structure are wired, and no two have the same name. -/
structure Listed (nameAt : Nat ⊕ PipelineValue → MemberName) (members : List StageMember) :
    Prop where
  wired : ∀ m ∈ members, m.Wired nameAt
  names : (members.map StageMember.name).Nodup

variable {nameAt : Nat ⊕ PipelineValue → MemberName} {members members' : List StageMember}

theorem listed_nil : Listed nameAt [] := ⟨by simp, nodup_nil⟩

/-- **No two members of a structure are wired to the same place.** -/
theorem Listed.places (h : Listed nameAt members) : (members.map fun m => m.slot.place).Nodup := by
  have hnames : members.map StageMember.name =
      (members.map fun m => m.slot.place).map nameAt := by
    rw [map_map]
    exact map_congr_left fun m hm => (h.wired m hm).name_eq
  have hnodup := h.names
  rw [hnames] at hnodup
  exact hnodup.of_map nameAt

/-- Spellings of member names can be told apart. -/
def MemberName.spelling : MemberName → Spelling
  | vertexAttribute n => ⟨"attribute_", some n, ""⟩
  | varying n => ⟨"varying_", some n, ""⟩
  | color n => ⟨"color_", some n, ""⟩
  | name => { head := name.text }

theorem MemberName.text_spelling (name : MemberName) : name.spelling.text = name.text := by
  cases name <;> simp [spelling, Spelling.text, text, toString]

/-- Members have different texts. -/
theorem MemberName.text_inj {a b : MemberName} (h : a.text = b.text) : a = b := by
  have hplain (name : MemberName) : name.spelling.IsPlain := by
    cases name with
    | vertexAttribute | varying | color =>
      refine ⟨?_, ?_, fun h => by cases h⟩ <;> simp [spelling, Spelling.hasNoDigit]
    | _ => exact ⟨by decide, by decide, fun _ => rfl⟩
  rw [← a.text_spelling, ← b.text_spelling] at h
  have hspelling := Spelling.text_inj (hplain a) (hplain b) h
  cases a <;> cases b <;> first | exact absurd hspelling (by decide) | simp_all [spelling, text]

/-- The names of a structure differ as texts, too. -/
theorem Listed.texts (h : Listed nameAt members) : (members.map fun m => m.name.text).Nodup := by
  have hmap : (members.map fun m => m.name.text) =
      (members.map StageMember.name).map MemberName.text := by simp
  rw [hmap]
  exact h.names.map fun _ _ => MemberName.text_inj

namespace Codegen

variable {ctx : Context} {st st' : State} {values : Values} {s : Stmt} {l : Lowering} {id : StmtId}
  {o : Offload} {d : Draft}

/-- A member is added once. -/
theorem addMember_eq_ok {m : StageMember} (h : State.addMember id members m = .ok members') :
    m ∈ members ∧ members' = members ∨
      m.name ∉ members.map StageMember.name ∧ members' = members ++ [m] := by
  obtain ⟨hnone, rfl⟩ | ⟨hfind, rfl⟩ := addMember_cases h
  · refine .inr ⟨fun hmem => ?_, rfl⟩
    obtain ⟨other, hother, hname⟩ := mem_map.1 hmem
    exact absurd hname (by simpa using List.find?_eq_none.1 hnone other hother)
  · exact .inl ⟨mem_of_find?_eq_some hfind, rfl⟩

theorem addMember_listed {m : StageMember} (h : Listed nameAt members) (hm : m.Wired nameAt)
    (hadd : State.addMember id members m = .ok members') : Listed nameAt members' := by
  rcases addMember_eq_ok hadd with ⟨-, rfl⟩ | ⟨hfresh, rfl⟩
  · exact h
  · refine ⟨forall_mem_append.2 ⟨h.wired, forall_mem_singleton.2 hm⟩, ?_⟩
    rw [map_append, map_cons, map_nil, nodup_append']
    exact ⟨h.names, nodup_singleton _, by simpa using hfresh⟩

/-- **Adding members keeps a structure wired**, and every member was there or is one of them. -/
theorem addMembers_listed {ms : List StageMember} (h : Listed nameAt members)
    (hms : ∀ m ∈ ms, m.Wired nameAt)
    (hadd : ms.foldlM (State.addMember id) members = .ok members') :
    Listed nameAt members' ∧ ∀ m ∈ members', m ∈ members ∨ m ∈ ms := by
  induction ms generalizing members with
  | nil =>
    cases hadd
    exact ⟨h, fun _ hm => .inl hm⟩
  | cons m ms ih =>
    obtain ⟨hm, hms⟩ := forall_mem_cons.1 hms
    rw [foldlM_cons] at hadd
    obtain ⟨members₁, hfirst, hadd⟩ := bind_eq_ok.1 hadd
    obtain ⟨hlisted, hmem⟩ := ih (addMember_listed h hm hfirst) hms hadd
    refine ⟨hlisted, fun k hk => ?_⟩
    rcases hmem k hk with hk | hk
    · rcases addMember_eq_ok hfirst with ⟨-, rfl⟩ | ⟨-, rfl⟩
      · exact .inl hk
      · rcases mem_append.1 hk with hk | hk
        · exact .inl hk
        · exact .inr (mem_cons.2 (.inl (mem_singleton.1 hk)))
    · exact .inr (mem_cons_of_mem _ hk)

/-! ## Statements -/

/-- A located member is wired by its number. -/
theorem wired_located {name : MemberName} {type : ShaderType} {n : Nat} {t : ValueType}
    (hname : name = nameAt (.inl n)) (htype : shaderType id t = .ok type) :
    (StageMember.located name type n t.prim).Wired nameAt := by
  obtain ⟨hprim, -, rfl⟩ := shaderType_eq_ok.1 htype
  refine ⟨hname, fun hslot => ?_⟩
  cases hslot
  rcases hprim with hprim | hprim <;>
    simp [StageMember.located, hprim, Prim.isInteger, Prim.isFloat, Prim.toScalar]

theorem wired_builtin {name : MemberName} {type : ShaderType} {value : PipelineValue}
    (hname : name = nameAt (.inr value)) :
    (StageMember.mk name type (.builtin value)).Wired nameAt :=
  ⟨hname, fun hslot => by cases hslot⟩

/-- **The members that a statement asks for are wired.** -/
theorem Lowers.wired (h : Lowers ctx values s l) :
    (∀ m ∈ l.inputs, m.Wired ctx.stage.inputAt) ∧ ∀ m ∈ l.outputs, m.Wired ctx.stage.outputAt := by
  have hnone {nameAt : Nat ⊕ PipelineValue → MemberName} :
      ∀ m ∈ ([] : List StageMember), m.Wired nameAt := by simp
  cases h with
  | rand =>
    refine ⟨fun m hm => ?_, hnone⟩
    cases hstage : ctx.stage <;> simp only [hstage, randInputs, mem_singleton] at hm
    · cases hm
    · subst hm
      exact wired_builtin rfl
    · subst hm
      exact wired_builtin rfl
  | vertexInput _ hstage htype | fragmentInput _ hstage htype =>
    refine ⟨forall_mem_singleton.2 (wired_located ?_ htype), hnone⟩
    simp [Stage.inputAt, hstage]
  | vertexIndex | instanceIndex | fragCoord =>
    exact ⟨forall_mem_singleton.2 (wired_builtin rfl), hnone⟩
  | vertexOutput _ hstage _ htype =>
    refine ⟨hnone, forall_mem_singleton.2 (wired_located ?_ htype)⟩
    simp [Stage.outputAt, hstage]
  | color _ hstage =>
    have htype : shaderType s.id ⟨.f32, 4⟩ = .ok ⟨.f32, 4⟩ := rfl
    refine ⟨hnone, forall_mem_singleton.2 (wired_located ?_ htype)⟩
    simp [Stage.outputAt, hstage]
  | fragDepth => exact ⟨hnone, forall_mem_singleton.2 (wired_builtin rfl)⟩
  | sample _ _ hl | sampleLod _ _ _ hl =>
    obtain ⟨use, e, type, -, -, rfl⟩ := sampleTexture_eq_ok hl
    exact ⟨hnone, hnone⟩
  | _ => exact ⟨hnone, hnone⟩

/-- A fragment input was checked: the vertex stage has an output of its type at its location. -/
theorem checkVarying_eq_ok {type : ShaderType} {location : Nat}
    (h : checkVarying ctx id type location = .ok ()) :
    ∃ out ∈ ctx.varyings, (∃ flat, out.slot = .location location flat) ∧ out.type = type := by
  unfold checkVarying at h
  dsimp only at h
  split at h
  · simp at h
  · rename_i out hfind
    split at h
    · rename_i htype
      refine ⟨out, mem_of_find?_eq_some hfind, ?_, htype⟩
      have hthere := List.find?_some hfind
      cases hslot : out.slot with
      | location n flat =>
        rw [hslot] at hthere
        exact ⟨flat, by rw [show n = location by simpa using hthere]⟩
      | builtin value =>
        rw [hslot] at hthere
        cases hthere
    · simp at h

/-- **Fragment inputs at locations are outputs of the vertex stage.** -/
theorem Lowers.fed (h : Lowers ctx values s l) (hstage : ctx.stage = .fragment)
    (hvaryings : ∀ v ∈ ctx.varyings, v.Wired Stage.vertex.outputAt) :
    ∀ m ∈ l.inputs, ∀ n flat, m.slot = .location n flat → m ∈ ctx.varyings := by
  intro m hm n flat hslot
  have hwired := h.wired.1 m hm
  cases h with
  | fragmentInput _ _ htype hvarying =>
    cases mem_singleton.1 hm
    cases hslot
    obtain ⟨out, hout, ⟨flat, hflat⟩, htype⟩ := checkVarying_eq_ok hvarying
    have heq := hwired.ext (hvaryings out hout) (by simp [Stage.inputAt, Stage.outputAt, hstage])
      rfl hflat htype.symm
    exact heq ▸ hout
  | vertexInput _ hvertex =>
    rw [hstage] at hvertex
    cases hvertex
  | rand =>
    simp only [hstage, randInputs, mem_singleton] at hm
    subst hm
    cases hslot
  | vertexIndex | instanceIndex | fragCoord =>
    cases mem_singleton.1 hm
    cases hslot
  | sample _ _ hl | sampleLod _ _ _ hl =>
    obtain ⟨use, e, type, -, -, rfl⟩ := sampleTexture_eq_ok hl
    cases hm
  | _ => cases hm

/-- The interface so far: members are wired, told apart by name, and taken from an output. -/
structure State.Faces (ctx : Context) (st : State) : Prop where
  inputs : Listed ctx.stage.inputAt st.inputs
  outputs : Listed ctx.stage.outputAt st.outputs
  fed : ctx.stage = .fragment → ∀ m ∈ st.inputs, ∀ n flat, m.slot = .location n flat →
    m ∈ ctx.varyings

/-- A statement keeps the interface in order. -/
theorem apply_faces (hst : st.Faces ctx)
    (hvaryings : ∀ v ∈ ctx.varyings, v.Wired Stage.vertex.outputAt) (hl : Lowers ctx values s l)
    (h : st.apply id l = .ok st') : st'.Faces ctx := by
  obtain ⟨bindings, globals, inputs, outputs, -, hinputs, houtputs, rfl⟩ := apply_eq_ok h
  obtain ⟨hlisted, hmem⟩ := addMembers_listed hst.inputs hl.wired.1 hinputs
  refine ⟨hlisted, (addMembers_listed hst.outputs hl.wired.2 houtputs).1, fun hstage m hm => ?_⟩
  rcases hmem m hm with hm | hm
  · exact hst.fed hstage m hm
  · exact hl.fed hstage hvaryings m hm

/-- **A walk keeps the interface in order.** -/
theorem Walks.faces {inner : Outline} {code : Code} (h : Walks ctx st inner st' code)
    (hvaryings : ∀ v ∈ ctx.varyings, v.Wired Stage.vertex.outputAt) (hst : st.Faces ctx) :
    st'.Faces ctx :=
  h.keeps (fun _ hst hl happly => apply_faces hst hvaryings hl happly) hst

/-- The outputs that a stage has before its body is walked. -/
def firstOutputs : Stage → List StageMember
  | .vertex => [.position]
  | .compute | .fragment => []

/-- **A graphics stage is one walk**, from its first outputs on. -/
theorem draft_stage {bindings : BindingMap} (ho : o ∈ ctx.module.groups)
    (hstage : ctx.stage = o.kind.stage) (hgraphics : ctx.stage ≠ .compute)
    (h : draft ctx { bindings } o = .ok d) :
    ∃ body st' code, Walks ctx { bindings, outputs := firstOutputs ctx.stage }
        (ctx.module.outline body) st' code ∧ d = { state := st', body := code } := by
  have hkind : o.kind = .vertexFor ∨ o.kind = .fragmentFor := by
    cases hk : o.kind <;> simp_all [OffloadKind.stage]
  obtain ⟨root, hstmts⟩ :=
    Module.exists_root_of_mem_groups ho (by rcases hkind with h | h <;> simp [h])
  obtain ⟨s, body, outputs, st', code, -, hroot, hwalk, rfl⟩ := draft_root hkind hstmts h
  refine ⟨body, st', code, ?_, rfl⟩
  rcases hroot with ⟨hvertex, -, houtputs⟩ | ⟨hfragment, -, rfl⟩
  · cases houtputs
    rw [hvertex]
    exact walks_of_walk hwalk
  · rw [hfragment]
    exact walks_of_walk hwalk

/-- The interface of a draft is in order. -/
theorem draft_faces {bindings : BindingMap} (ho : o ∈ ctx.module.groups)
    (hstage : ctx.stage = o.kind.stage) (hgraphics : ctx.stage ≠ .compute)
    (hvaryings : ∀ v ∈ ctx.varyings, v.Wired Stage.vertex.outputAt)
    (h : draft ctx { bindings } o = .ok d) : d.state.Faces ctx := by
  obtain ⟨body, st', code, hwalks, rfl⟩ := draft_stage ho hstage hgraphics h
  refine hwalks.faces hvaryings ⟨listed_nil, ?_, fun _ m hm => by cases hm⟩
  cases hs : ctx.stage with
  | vertex => exact ⟨forall_mem_singleton.2 (wired_builtin rfl), nodup_singleton _⟩
  | compute | fragment => exact listed_nil

end Codegen

end WgslKernel
