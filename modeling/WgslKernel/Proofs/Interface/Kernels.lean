import WgslKernel.Proofs.Bindings.Kernels
import WgslKernel.Proofs.Interface.Structures

/-!
# The stage interfaces of a kernel

In every kernel the interfaces of its graphics tasks agree, with their shaders and with each other
(`compile_interfaces`).  A fragment task is compared with its vertex task by the types at a location
only; that this is enough comes from how members are wired.
-/

namespace WgslKernel

open List

namespace Codegen

variable {ctx : Context} {values : Values} {s : Stmt} {l : Lowering} {o : Offload} {d : Draft}

theorem useTexture_isStorage {id : StmtId} {t : Texture} {use : Use}
    (h : useTexture id t = .ok use) : use.declaration.isStorage = false := by
  unfold useTexture at h
  split at h
  · simp at h
  · cases h
    rfl
  · cases h
    rfl

/-- Graphics stages write no textures. -/
theorem Lowers.isStorage (h : Lowers ctx values s l) (hgraphics : ctx.stage ≠ .compute) :
    ∀ u ∈ l.uses, u.declaration.isStorage = false := by
  cases h with
  | argLoad | rand | globalLoad | globalStore | temporaryLoad | temporaryStore =>
    exact forall_mem_singleton.2 rfl
  | atomicInt _ htarget | atomicFloat _ htarget | atomicLoad _ htarget | atomicStore _ htarget =>
    exact absurd (atomicTarget_cases htarget).1 hgraphics
  | sample _ _ hl | sampleLod _ _ _ hl =>
    obtain ⟨use, e, type, huse, -, rfl⟩ := sampleTexture_eq_ok hl
    exact forall_mem_cons.2 ⟨useTexture_isStorage huse, forall_mem_singleton.2 rfl⟩
  | textureLoad _ _ _ huse => exact forall_mem_singleton.2 (useTexture_isStorage huse)
  | textureStore _ _ hwritable => exact absurd (checkWritable_eq_ok.1 hwritable) hgraphics
  | ret _ hstage => exact absurd hstage hgraphics
  | _ =>
    intro u hu
    cases hu

/-- **The shader of a graphics stage** declares and uses the layout that was collected for it. -/
theorem draft_piece {bindings : BindingMap} (ho : o ∈ ctx.module.groups)
    (hstage : ctx.stage = o.kind.stage) (hgraphics : ctx.stage ≠ .compute)
    (h : draft ctx { bindings } o = .ok d) :
    Piece ⟨d.state.inputs, d.state.outputs⟩
      (structOf "StageInput" d.state.inputs ++ structOf "StageOutput" d.state.outputs)
      (assemble ctx o.kind d).shader.text := by
  obtain ⟨hprologue, hbody⟩ := draft_within ho hstage hgraphics h
  refine Shader.piece (s := (assemble ctx o.kind d).shader) hgraphics ?_ hprologue hbody
  obtain ⟨body, st', code, hwalks, rfl⟩ := draft_stage ho hstage hgraphics h
  exact hwalks.globals (P := fun _ decl => decl.isStorage = false)
    (fun _ _ _ hl => hl.isStorage hgraphics) nofun

end Codegen

/-! ## Tasks -/

/-- The interface of a task agrees with its shader: members have different names and places, and the
shader declares them in this order and takes nothing else. -/
structure Task.Agrees (t : Task) (L : StageLayout) : Prop where
  inputNames : (L.inputs.map fun m => m.name.text).Nodup
  outputNames : (L.outputs.map fun m => m.name.text).Nodup
  inputPlaces : (L.inputs.map fun m => m.slot.place).Nodup
  outputPlaces : (L.outputs.map fun m => m.slot.place).Nodup
  inputs : ∀ x, ["stage_input", ".", x] <:+: tokens t.code → x ∈ L.inputs.map fun m => m.name.text
  outputs : ∀ x, ["stage_output", ".", x] <:+: tokens t.code →
    x ∈ L.outputs.map fun m => m.name.text
  structs : stageStructs (tokens t.code) =
    structOf "StageInput" L.inputs ++ structOf "StageOutput" L.outputs

variable {m : Module} {signature : Signature} {config : Config} {o : Offload} {t : Task}

/-- What is read off the text is the layout. -/
theorem Task.agrees_of_piece {L : StageLayout} {nameIn nameOut : Nat ⊕ PipelineValue → MemberName}
    (hinputs : Listed nameIn L.inputs) (houtputs : Listed nameOut L.outputs)
    (hpiece : Piece L (structOf "StageInput" L.inputs ++ structOf "StageOutput" L.outputs) t.code) :
    t.Agrees L where
  inputNames := hinputs.texts
  outputNames := houtputs.texts
  inputPlaces := hinputs.places
  outputPlaces := houtputs.places
  inputs _ hx := hpiece.inputs.mem hx
  outputs _ hx := hpiece.outputs.mem hx
  structs := hpiece.stageStructs_eq

/-- The outputs of the task that a stage starts from. -/
def varyingsOf (previous : Option Task) : List StageMember := (previous.map Task.outputs).getD []

/-- **The task of a graphics stage** agrees with its shader, is wired in the way of its stage, and
takes in what the stage before it puts out. -/
theorem generate_agrees {previous : Option Task} (ho : o ∈ m.groups)
    (hkind : o.kind = .vertexFor ∨ o.kind = .fragmentFor)
    (hvaryings : ∀ v ∈ varyingsOf previous, v.Wired Stage.vertex.outputAt)
    (h : generate m o signature config previous = .ok t) :
    ∃ L, t.dispatch.layout? = some L ∧ t.Agrees L ∧ Listed o.kind.stage.outputAt L.outputs ∧
      (o.kind = .fragmentFor → ∀ k ∈ L.inputs, ∀ n flat, k.slot = .location n flat →
        k ∈ varyingsOf previous) := by
  obtain ⟨p, hp, h⟩ := bind_eq_ok.1 h
  cases h
  obtain ⟨bindings, d, hd, rfl⟩ := Codegen.program_eq_ok hp
  have hgraphics : o.kind.stage ≠ .compute := by
    rcases hkind with hkind | hkind <;> simp [hkind, OffloadKind.stage]
  have hctx : (Codegen.contextOf m o signature config previous).varyings = varyingsOf previous := by
    cases previous <;> rfl
  have hfaces := Codegen.draft_faces ho rfl hgraphics (by rwa [hctx]) hd
  have hpiece := Codegen.draft_piece ho rfl hgraphics hd
  refine ⟨⟨d.state.inputs, d.state.outputs⟩, ?_, ?_, hfaces.outputs, fun hfragment k hk => ?_⟩
  · rcases hkind with hkind | hkind <;>
      simp [Codegen.Program.task, Codegen.assemble, Codegen.contextOf, hkind, OffloadKind.stage,
        Dispatch.layout?]
  · exact Task.agrees_of_piece hfaces.inputs hfaces.outputs hpiece
  · rw [← hctx]
    refine hfaces.fed ?_ k hk
    show o.kind.stage = .fragment
    rw [hfragment]
    rfl

/-! ## Kernels -/

namespace Compile

variable {ts before after : List Task} {v : Task}

/-- No vertex task stands behind the latest one. -/
theorem latestVertex_split (h : latestVertex ts = some v) : ∃ pre mid, ts = pre ++ v :: mid ∧
    v.kind = .vertexFor ∧ ∀ u ∈ mid, u.kind ≠ .vertexFor := by
  obtain ⟨hv, mid, pre, hreverse, hmid⟩ := List.find?_eq_some_iff_append.1 h
  refine ⟨pre.reverse, mid.reverse, ?_, by simpa using hv, fun u hu => ?_⟩
  · rw [← reverse_reverse ts, hreverse]
    simp
  · simpa using hmid u (mem_reverse.1 hu)

/-- **What a fragment stage is compared with is wired** in the way of a vertex stage. -/
theorem sequence_varyings
    (h : sequence m signature config none m.groups = .ok (before ++ t :: after)) :
    ∀ k ∈ varyingsOf (startOf before t.kind), k.Wired Stage.vertex.outputAt := by
  intro k hk
  unfold startOf at hk
  split at hk
  · cases hlatest : latestVertex before with
    | none =>
      rw [hlatest] at hk
      cases hk
    | some v =>
      rw [hlatest] at hk
      obtain ⟨pre, mid, rfl, hvertex, -⟩ := latestVertex_split hlatest
      rw [List.append_assoc, cons_append] at h
      obtain ⟨o, ho, -, hkind, hgenerate⟩ := sequence_origin h
      rw [startOf, if_neg (by simp [hvertex])] at hgenerate
      rw [hvertex] at hkind
      obtain ⟨L, hL, -, houtputs, -⟩ :=
        generate_agrees ho (.inl hkind.symm) (fun _ hk => absurd hk not_mem_nil) hgenerate
      rw [← hkind] at houtputs
      refine houtputs.wired k ?_
      simpa [varyingsOf, Task.outputs, hL] using hk
  · cases hk

end Compile

/-- **Stage interfaces agree.**  Each graphics task agrees with its shader, and each input of a
fragment task at a location is an output of the closest vertex task before it. -/
theorem compile_interfaces {kernel : Kernel} (h : compile m signature config = .ok kernel)
    {before after : List Task} (htasks : kernel.tasks = before ++ t :: after)
    (hkind : t.kind = .vertexFor ∨ t.kind = .fragmentFor) :
    ∃ L, t.dispatch.layout? = some L ∧ t.Agrees L ∧
      (t.kind = .fragmentFor → ∀ k ∈ L.inputs, ∀ n flat, k.slot = .location n flat →
        ∃ pre v mid, before = pre ++ v :: mid ∧ v.kind = .vertexFor ∧
          (∀ u ∈ mid, u.kind ≠ .vertexFor) ∧ k ∈ v.outputs) := by
  obtain ⟨-, hsequence⟩ := compileInOrder_of_compile h
  rw [htasks] at hsequence
  have hvaryings := Compile.sequence_varyings hsequence
  obtain ⟨o, ho, -, hsame, hgenerate⟩ := Compile.sequence_origin hsequence
  rw [hsame] at hkind
  obtain ⟨L, hL, hagrees, -, hfed⟩ := generate_agrees ho hkind hvaryings hgenerate
  refine ⟨L, hL, hagrees, fun hfragment k hk n flat hslot => ?_⟩
  have hmem := hfed (hsame ▸ hfragment) k hk n flat hslot
  rw [Compile.startOf, if_pos hfragment] at hmem
  cases hlatest : Compile.latestVertex before with
  | none =>
    rw [hlatest] at hmem
    cases hmem
  | some v =>
    rw [hlatest] at hmem
    obtain ⟨pre, mid, heq, hvertex, hmid⟩ := Compile.latestVertex_split hlatest
    exact ⟨pre, v, mid, heq, hvertex, hmid, hmem⟩

/-- Two vertex stages with a different type at one location, a parallel loop, and a fragment stage.
One output is written twice and read twice, and random numbers are drawn. -/
def Session.linked : List Action :=
  [.create (.const (.i32 1)), .create .vertexFor, .openGuard .vertexFor 1,
    .create (.vertexInput .f32 0), .create (.positionOutput [2, 2, 2, 2]),
    .create (.vertexOutput 2 1), .closeGuard 0, .create .vertexFor, .openGuard .vertexFor 5,
    .create (.rand .i32), .create (.vertexInput .f32 3), .create (.vertexOutput 6 1),
    .create (.vertexOutput 7 2), .create (.vertexOutput 6 1), .closeGuard 1,
    .create (.rangeFor (.value 0) false), .openGuard .rangeFor 11, .closeGuard 2,
    .create .fragmentFor, .openGuard .fragmentFor 12, .create (.fragmentInput .i32 1),
    .create (.rand .f32), .create (.fragmentInput .i32 1),
    .create (.colorOutput 0 [14, 14, 13, 15]), .closeGuard 3]

/-- The fragment stage reads what the second vertex stage wrote. -/
theorem compile_interfaces_linked : ∃ (s : Session) (m : Module) (kernel : Kernel)
    (before : List Task) (t : Task) (L : StageLayout), Session.run {} Session.linked = .ok s ∧
      s.builder.finish = .ok m ∧ compile m {} {} = .ok kernel ∧ kernel.tasks = before ++ [t] ∧
      before.map Task.kind = [.vertexFor, .vertexFor, .rangeFor] ∧ t.kind = .fragmentFor ∧
      t.dispatch.layout? = some L ∧
      L.inputs = [⟨.varying 1, ⟨.i32, 1⟩, .location 1 true⟩, .fragCoord] ∧ t.Agrees L ∧
      ∃ pre v mid, before = pre ++ v :: mid ∧ v.kind = .vertexFor ∧
        (∀ u ∈ mid, u.kind ≠ .vertexFor) ∧
        ⟨.varying 1, ⟨.i32, 1⟩, .location 1 true⟩ ∈ v.outputs := by
  have hkernel : ∃ s m kernel before t L, Session.run {} Session.linked = .ok s ∧
      s.builder.finish = .ok m ∧ compile m {} {} = .ok kernel ∧ kernel.tasks = before ++ [t] ∧
      before.map Task.kind = [.vertexFor, .vertexFor, .rangeFor] ∧ t.kind = .fragmentFor ∧
      t.dispatch.layout? = some L ∧
      L.inputs = [⟨.varying 1, ⟨.i32, 1⟩, .location 1 true⟩, .fragCoord] :=
    ⟨_, _, _, [_, _, _], _, _, rfl, rfl, rfl, rfl, rfl, rfl, rfl, rfl⟩
  obtain ⟨s, m, kernel, before, t, L, hrun, hfinish, hcompile, htasks, hkinds, hkind, hL,
    hinputs⟩ := hkernel
  obtain ⟨L', hL', hagrees, hfed⟩ := compile_interfaces hcompile htasks (.inr hkind)
  rw [hL] at hL'
  cases hL'
  exact ⟨s, m, kernel, before, t, L, hrun, hfinish, hcompile, htasks, hkinds, hkind, hL, hinputs,
    hagrees, hfed hkind _ (by simp [hinputs]) 1 true rfl⟩

end WgslKernel
