import WgslKernel.Proofs.Bindings.Declarations

/-!
# The bindings of a kernel

Everything about slots, for a whole kernel (`compile_bindings`).  The texel format of a storage
texture is free text, so that nothing in it is taken for a declaration has to be followed from the
list of formats through the walk.
-/

namespace WgslKernel

open List

namespace Codegen

variable {ctx : Context} {values : Values} {s : Stmt} {l : Lowering} {st : State} {o : Offload}
  {d : Draft}

/-! ## Texel formats -/

theorem useTexture_plain {id : StmtId} {t : Texture} {use : Use}
    (h : useTexture id t = .ok use) : use.declaration.IsPlain := by
  unfold useTexture at h
  split at h
  · simp at h
  · cases h
    trivial
  · cases h
    trivial

theorem useStorageTexture_plain {id : StmtId} {t : Texture} {use : Use}
    (h : useStorageTexture id t = .ok use) : use.declaration.IsPlain := by
  have hformat {format : String} (hname : t.format.storageName = some format) :
      Unmarked format := by
    cases hf : t.format <;> rw [hf] at hname <;> cases hname <;> decide
  unfold useStorageTexture at h
  split at h
  · simp at h
  · rename_i format hname
    split at h
    · simp at h
    · cases h
      exact hformat hname

theorem atomicTarget_plain {user ptr : StmtId} {write : Bool} {target : AtomicTarget}
    (h : atomicTarget ctx values user ptr write = .ok target) :
    target.use.declaration.IsPlain := by
  obtain ⟨-, v, -, ⟨f, indices, offset, -, -, rfl⟩ | ⟨ty, offset, -, rfl⟩⟩ := atomicTarget_cases h
  · trivial
  · trivial

/-- Statements declare what they use with known formats. -/
theorem Lowers.plain (h : Lowers ctx values s l) : ∀ u ∈ l.uses, u.declaration.IsPlain := by
  cases h with
  | argLoad | rand | globalLoad | globalStore | temporaryLoad | temporaryStore | ret =>
    exact forall_mem_singleton.2 trivial
  | atomicInt _ htarget | atomicFloat _ htarget | atomicLoad _ htarget | atomicStore _ htarget =>
    exact forall_mem_singleton.2 (atomicTarget_plain htarget)
  | sample _ _ hl | sampleLod _ _ _ hl =>
    obtain ⟨use, e, type, huse, -, rfl⟩ := sampleTexture_eq_ok hl
    exact forall_mem_cons.2 ⟨useTexture_plain huse, forall_mem_singleton.2 trivial⟩
  | textureLoad _ _ _ huse => exact forall_mem_singleton.2 (useTexture_plain huse)
  | textureStore _ _ _ _ huse => exact forall_mem_singleton.2 (useStorageTexture_plain huse)
  | _ =>
    intro u hu
    cases hu

/-- All declarations so far are plain. -/
def State.Plain (st : State) : Prop := ∀ g ∈ st.globals, g.declaration.IsPlain

/-- What a draft declares has no mark in it. -/
theorem draft_plain (ho : o ∈ ctx.module.groups) (hst : st.Plain) (h : draft ctx st o = .ok d) :
    d.state.Plain :=
  draft_globals (P := fun _ decl => decl.IsPlain) (Module.exists_root_of_mem_groups ho)
    (fun _ _ _ _ hl => hl.plain) trivial hst h

variable {m : Module} {signature : Signature} {config : Config} {previous : Option Task} {t : Task}

/-- **The text of a task declares its bindings**, in their order. -/
theorem read_generate (ho : o ∈ m.groups) (h : generate m o signature config previous = .ok t) :
    Declarations.read t.code.toList = t.bindings.map Declarations.ofBinding := by
  obtain ⟨p, hp, h⟩ := bind_eq_ok.1 h
  cases h
  obtain ⟨bindings, d, hd, rfl⟩ := program_eq_ok hp
  have hstart : State.Plain { bindings } := by
    intro g hg
    cases hg
  have hplain : ∀ g ∈ (assemble (contextOf m o signature config previous) o.kind d).shader.globals,
      g.declaration.IsPlain := by
    refine draft_plain ?_ hstart hd
    exact ho
  show Declarations.read (Shader.text _).toList = (List.map Global.binding _).map _
  rw [Declarations.read_shader hplain, map_map]
  rfl

end Codegen

/-- Resources have different names. -/
theorem Resource.name_inj {r q : Resource} (hr : r.IsNumbered) (hq : q.IsNumbered)
    (h : r.name = q.name) : r = q := by
  have heq := Name.text_inj (a := .ident (.resource r)) (b := .ident (.resource q)) hr hq h
  cases heq
  rfl

/-- **The bindings of a kernel.**  The task at each place is that of the offload at the same place.
Its bindings extend those of the stage it starts from, in the order in which the offload uses its
resources, and its shader declares exactly these bindings in the same order.  Resources that are
bound anywhere in the kernel have different names. -/
theorem compile_bindings {m : Module} {signature : Signature} {config : Config} {kernel : Kernel}
    (h : compile m signature config = .ok kernel) :
    (∀ before t after, kernel.tasks = before ++ t :: after →
      ∃ o, m.groups[before.length]? = some o ∧ t.kind = o.kind ∧
        Binding.Extends (Codegen.seed (Compile.startOf before t.kind)) (m.uses o) t.bindings ∧
        Declarations.read t.code.toList = t.bindings.map Declarations.ofBinding) ∧
      ∀ t ∈ kernel.tasks, ∀ u ∈ kernel.tasks, ∀ b ∈ t.bindings, ∀ c ∈ u.bindings,
        b.resource.name = c.resource.name → b.resource = c.resource := by
  obtain ⟨-, hsequence⟩ := compileInOrder_of_compile h
  have hnumbered : ∀ t ∈ kernel.tasks, ∀ b ∈ t.bindings, b.resource.IsNumbered := by
    intro t ht b hb
    obtain ⟨before, after, heq⟩ := append_of_mem ht
    rw [heq] at hsequence
    obtain ⟨o, -, -, -, hextends⟩ := Compile.sequence_extends hsequence
    have hmem : b.resource ∈ (m.uses o).eraseDups := by
      rw [← hextends.order]
      exact mem_map_of_mem hb
    exact Module.isNumbered_of_mem_uses (mem_eraseDups.1 hmem)
  refine ⟨fun before t after heq => ?_, fun t ht u hu b hb c hc hname => ?_⟩
  · rw [heq] at hsequence
    obtain ⟨o, ho, hat, hkind, hextends⟩ := Compile.sequence_extends hsequence
    obtain ⟨o', ho', hat', -, hgenerate⟩ := Compile.sequence_origin hsequence
    exact ⟨o, hat, hkind, hextends, Codegen.read_generate ho' hgenerate⟩
  · exact Resource.name_inj (hnumbered t ht b hb) (hnumbered u hu c hc) hname

/-- A vertex stage, a parallel loop, and a fragment stage that uses the buffer of the loop first,
and then a resource of the vertex stage. -/
def Session.interleaved : List Action :=
  [.create (.const (.i32 1)), .create .vertexFor, .openGuard .vertexFor 1,
    .create (.argLoad .f32 0), .create (.globalPtr ⟨0, [4], .f32, 1, 0, 0, true⟩ [0] 0),
    .create (.globalLoad 3), .create (.positionOutput [2, 2, 4, 2]), .closeGuard 0,
    .create (.rangeFor (.value 0) false), .openGuard .rangeFor 6,
    .create (.globalPtr ⟨1, [4], .f32, 1, 1, 0, true⟩ [0] 0), .create (.globalLoad 7),
    .create (.globalStore 7 8), .closeGuard 1, .create .fragmentFor, .openGuard .fragmentFor 10,
    .create (.globalPtr ⟨1, [4], .f32, 1, 1, 0, true⟩ [0] 0), .create (.globalLoad 11),
    .create (.globalPtr ⟨0, [4], .f32, 1, 0, 0, true⟩ [0] 0), .create (.globalLoad 13),
    .create (.colorOutput 0 [12, 12, 12, 14]), .closeGuard 2]

/-- The fragment stage shares a slot, and adds one. -/
theorem compile_bindings_interleaved : ∃ (s : Session) (m : Module) (kernel : Kernel),
    Session.run {} Session.interleaved = .ok s ∧ s.builder.finish = .ok m ∧
      compile m ⟨4, 0⟩ {} = .ok kernel ∧
      kernel.tasks.map Task.bindings =
        [[⟨.args, 0⟩, ⟨.root 0, 1⟩], [⟨.root 1, 0⟩], [⟨.root 1, 2⟩, ⟨.root 0, 1⟩]] ∧
      (∀ before t after, kernel.tasks = before ++ t :: after →
        ∃ o, m.groups[before.length]? = some o ∧ t.kind = o.kind ∧
          Binding.Extends (Codegen.seed (Compile.startOf before t.kind)) (m.uses o) t.bindings ∧
          Declarations.read t.code.toList = t.bindings.map Declarations.ofBinding) ∧
      ∀ t ∈ kernel.tasks, ∀ u ∈ kernel.tasks, ∀ b ∈ t.bindings, ∀ c ∈ u.bindings,
        b.resource.name = c.resource.name → b.resource = c.resource := by
  have hkernel : ∃ s m kernel, Session.run {} Session.interleaved = .ok s ∧
      s.builder.finish = .ok m ∧ compile m ⟨4, 0⟩ {} = .ok kernel ∧ kernel.tasks.map Task.bindings =
        [[⟨.args, 0⟩, ⟨.root 0, 1⟩], [⟨.root 1, 0⟩], [⟨.root 1, 2⟩, ⟨.root 0, 1⟩]] :=
    ⟨_, _, _, rfl, rfl, rfl, rfl⟩
  obtain ⟨s, m, kernel, hrun, hfinish, hcompile, hslots⟩ := hkernel
  exact ⟨s, m, kernel, hrun, hfinish, hcompile, hslots, compile_bindings hcompile⟩

end WgslKernel
