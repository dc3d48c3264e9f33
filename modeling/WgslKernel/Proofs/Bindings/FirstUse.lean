import WgslKernel.Proofs.Bindings.Slots

/-!
# Resources in the order of use

Which resources an offload uses, and in which order, can be read off the module (`Module.uses`).
The slots of a program are allotted to these resources in this order (`program_shares`).
-/

namespace WgslKernel

namespace Module

variable {m : Module} {o : Offload}

/-! ## What statements work with -/

/-- The resources that a statement works with, in the order in which it names them. -/
def resources (m : Module) : Kind → List Resource
  | .argLoad .. => [.args]
  | .ret _ => [.rets]
  | .rand _ | .temporaryLoad _ | .temporaryStore .. => [.globalTmps]
  | .globalLoad ptr | .globalStore ptr _ =>
    match m.kind? ptr with
    | some (.globalPtr f ..) => [.root f.buffer]
    | _ => []
  | .atomic _ ptr _ | .atomicLoad ptr | .atomicStore ptr _ =>
    match m.kind? ptr with
    | some (.globalPtr f ..) => [.rootAtomic f.buffer]
    | some (.temporary ..) => [.globalTmpsAtomic]
    | _ => []
  | .texture .sample t _ | .texture (.sampleLod _) t _ => [.texture t.id, .sampler t.id]
  | .texture .load t _ => [.texture t.id]
  | .texture (.store _) t _ => [.storageTexture t.id]
  | _ => []

/-- What the bound of a parallel loop is read from. -/
def boundResources (m : Module) : Kind → List Resource
  | .rangeFor (.value v) .. =>
    match m.kind? v with
    | some (.temporaryLoad _) => [.globalTmps]
    | _ => []
  | _ => []

/-- The statements of an offload in the order of the walk. -/
def walked (m : Module) (o : Offload) : List Stmt := (m.outlineOf m.outline o.stmts).stmts

/-- The resources that an offload uses, in the order of use. -/
def uses (m : Module) (o : Offload) : List Resource :=
  (o.root?.bind m.kind?).elim [] m.boundResources ++
    (m.walked o).flatMap fun s => m.resources s.kind

/-- A statement works with two resources at most, and each is numbered as it should be. -/
theorem resources_tidy (m : Module) (kind : Kind) :
    (m.resources kind).length ≤ 2 ∧ ∀ r ∈ m.resources kind, r.IsNumbered := by
  have hnone : ([] : List Resource).length ≤ 2 ∧ ∀ r ∈ ([] : List Resource), r.IsNumbered := by
    simp
  have hone {r : Resource} (hr : r.IsNumbered) :
      [r].length ≤ 2 ∧ ∀ q ∈ [r], q.IsNumbered := by simpa using hr
  have htwo {r q : Resource} (hr : r.IsNumbered) (hq : q.IsNumbered) :
      [r, q].length ≤ 2 ∧ ∀ p ∈ [r, q], p.IsNumbered := by simpa using ⟨hr, hq⟩
  cases kind with
  | argLoad | ret | rand | temporaryLoad | temporaryStore => exact hone rfl
  | globalLoad ptr | globalStore ptr =>
    rw [resources]
    split
    · exact hone rfl
    · exact hnone
  | atomic op ptr | atomicLoad ptr | atomicStore ptr =>
    rw [resources]
    split
    · exact hone rfl
    · exact hone rfl
    · exact hnone
  | texture access t coords =>
    cases access with
    | sample | sampleLod => exact htwo rfl rfl
    | load | store => exact hone rfl
  | _ => exact hnone

/-- The bound of a loop takes one resource at most. -/
theorem boundResources_tidy (m : Module) (kind : Kind) :
    (m.boundResources kind).length ≤ 1 ∧ ∀ r ∈ m.boundResources kind, r.IsNumbered := by
  unfold boundResources
  split
  · split
    · exact ⟨Nat.le_refl 1, by simp [Resource.IsNumbered, Resource.globalTmps,
        ResourceKind.isNumbered]⟩
    · simp
  · simp

theorem isNumbered_of_mem_uses {r : Resource} (h : r ∈ m.uses o) : r.IsNumbered := by
  rcases List.mem_append.1 h with h | h
  · cases hroot : o.root?.bind m.kind? with
    | none =>
      rw [hroot] at h
      cases h
    | some kind =>
      rw [hroot] at h
      exact (m.boundResources_tidy kind).2 r h
  · obtain ⟨s, -, hr⟩ := List.mem_flatMap.1 h
    exact (m.resources_tidy s.kind).2 r hr

end Module

namespace Codegen

variable {ctx : Context} {values : Values} {s : Stmt} {l : Lowering} {st st' : State}
  {vs rs : List Resource} {o : Offload} {d : Draft}

/-! ## What lowering uses -/

section Resources

attribute [local simp] Module.resources

theorem fieldOf_eq_ok {user ptr : StmtId} {f : Field} (h : fieldOf ctx user ptr = .ok f) :
    ∃ indices offset, ctx.module.kind? ptr = some (.globalPtr f indices offset) := by
  obtain ⟨kind, hkind, h⟩ := bind_eq_ok.1 h
  rw [kindOf_eq_ok] at hkind
  split at h
  · cases h
    exact ⟨_, _, hkind⟩
  · simp at h

theorem atomicTarget_resources {user ptr : StmtId} {write : Bool} {target : AtomicTarget}
    (h : atomicTarget ctx values user ptr write = .ok target) :
    ctx.module.resources (.atomicLoad ptr) = [target.use.resource] := by
  obtain ⟨-, v, -, ⟨f, indices, offset, hkind, -, rfl⟩ | ⟨ty, offset, hkind, rfl⟩⟩ :=
    atomicTarget_cases h
  · rw [Module.resources, hkind]
    rfl
  · rw [Module.resources, hkind]
    rfl

/-- **A statement uses what its kind works with.** -/
theorem Lowers.resources (h : Lowers ctx values s l) :
    l.uses.map Use.resource = ctx.module.resources s.kind := by
  cases h with
  | globalLoad hkind hfield | globalStore hkind hfield =>
    obtain ⟨indices, offset, hptr⟩ := fieldOf_eq_ok hfield
    rw [hkind, Module.resources, hptr]
    rfl
  | atomicInt hkind htarget | atomicFloat hkind htarget | atomicLoad hkind htarget
  | atomicStore hkind htarget =>
    rw [hkind]
    exact (atomicTarget_resources htarget).symm
  | sample hkind _ hl | sampleLod hkind _ _ hl =>
    obtain ⟨use, e, type, huse, -, rfl⟩ := sampleTexture_eq_ok hl
    rw [hkind, Module.resources, ← useTexture_resource huse]
    rfl
  | textureLoad hkind _ _ huse =>
    rw [hkind, Module.resources, ← useTexture_resource huse]
    rfl
  | textureStore hkind _ _ _ huse =>
    rw [hkind, Module.resources, ← useStorageTexture_resource huse]
    rfl
  | _ =>
    rw [‹s.kind = _›]
    rfl

/-- A statement that owns a block works with no resource. -/
theorem resources_of_childBlocks {m : Module} (h : s.kind.childBlocks ≠ []) :
    m.resources s.kind = [] := by
  cases hkind : s.kind <;> simp_all [Kind.childBlocks]

end Resources

/-- **A walk uses what its statements work with**, in the order of the walk. -/
theorem Walks.allotted {o : Outline} {code : Code} (h : Walks ctx st o st' code) (ho : o.Owned)
    (hst : st.Allotted vs rs) :
    st'.Allotted vs (rs ++ o.stmts.flatMap fun s => ctx.module.resources s.kind) := by
  refine h.along (P := fun st walked =>
      st.Allotted vs (rs ++ walked.flatMap fun s => ctx.module.resources s.kind)) ho
    (fun {_ _ s} _ hblocks hst => ?_) (fun _ hkind hlower happly hst => ?_) (by simpa)
  · simpa [resources_of_childBlocks hblocks] using hst
  · have hst' := apply_allotted hst happly
    rw [(lowers_of_lower hkind hlower).resources] at hst'
    simpa using hst'

/-! ## What a draft uses -/

/-- What the bound of a loop uses. -/
theorem GridBounds.resources {root : StmtId} {bound : RangeBound} {serial : Bool} {body : BlockId}
    {b : GridBound} (h : GridBounds ctx root bound b) :
    b.uses.map Use.resource = ctx.module.boundResources (.rangeFor bound serial body) := by
  cases h with
  | field => rfl
  | const hx => simp [Module.boundResources, hx]
  | loaded hload =>
    rw [Module.boundResources, hload]
    rfl

/-- The walk of an offload about one statement. -/
theorem walked_standalone {m : Module} {root : StmtId} {b : BlockId}
    (hs : m.stmts[root]? = some s) (hstmts : o.stmts = [root]) (hb : s.kind.childBlocks = [b]) :
    m.walked o = s :: (m.outline b).stmts := by
  rw [Module.walked, hstmts, Module.outlineOf_standalone hs hb]
  simp [Outline.stmts]

/-- The uses of an offload about one statement: those of its bound, and those inside of it. -/
theorem uses_standalone {m : Module} {root : StmtId} {b : BlockId} (hserial : o.kind ≠ .serial)
    (hs : m.stmts[root]? = some s) (hstmts : o.stmts = [root]) (hb : s.kind.childBlocks = [b]) :
    m.uses o = m.boundResources s.kind ++
      (m.outline b).stmts.flatMap fun t => m.resources t.kind := by
  have hroot : o.root? = some root := by
    unfold Offload.root?
    split
    · exact absurd ‹_› hserial
    · rw [hstmts]
      rfl
  rw [Module.uses, hroot, walked_standalone hs hstmts hb, List.flatMap_cons,
    resources_of_childBlocks (by simp [hb]), Option.bind_some, Module.kind?, hs]
  rfl

theorem boundResources_of_standalone {m : Module} {kind : Kind} {k : OffloadKind}
    (h : OffloadKind.standalone? kind = some k) (hk : k = .vertexFor ∨ k = .fragmentFor) :
    m.boundResources kind = [] := by
  cases kind with
  | rangeFor bound serial body =>
    cases serial with
    | true => cases h
    | false =>
      cases h
      rcases hk with hk | hk <;> cases hk
  | _ => rfl

/-- **A draft uses the resources of its offload**, in the order of use. -/
theorem draft_allotted (ho : o ∈ ctx.module.groups) (hst : st.Allotted vs [])
    (h : draft ctx st o = .ok d) : d.state.Allotted vs (ctx.module.uses o) := by
  cases hk : o.kind with
  | serial =>
    obtain ⟨st', code, hwalks, rfl⟩ := draft_serial hk h
    have hroot : o.root? = none := by rw [Offload.root?, hk]
    rw [Module.uses, hroot]
    exact hwalks.allotted (Module.owned_outlineOf (Module.owned_outline _) _) hst
  | rangeFor =>
    obtain ⟨root, hstmts⟩ := Module.exists_root_of_mem_groups ho (by simp [hk])
    obtain ⟨s, bound, serial, body, b, st₀, n, st', code, hs, hrange, hb, huses, -, hwalks, rfl⟩ :=
      draft_rangeFor hk hstmts h
    rw [uses_standalone (by simp [hk]) hs hstmts (by rw [hrange]; rfl), hrange, ← hb.resources]
    exact hwalks.allotted (Module.owned_outline _ _) (hst.foldlM huses)
  | vertexFor | fragmentFor =>
    obtain ⟨root, kind, hstmts, hkind, hstandalone⟩ :=
      (Module.standalone_of_mem_groups ho).resolve_left (by simp [hk])
    obtain ⟨s, body, outputs, st', code, hs, hb, -, -, hwalks, rfl⟩ :=
      draft_graphics (by simp [hk]) hstmts h
    rw [Module.kind?, hs] at hkind
    cases hkind
    rw [uses_standalone (by simp [hk]) hs hstmts hb,
      boundResources_of_standalone hstandalone (by simp [hk])]
    exact hwalks.allotted (Module.owned_outline _ _) ⟨hst.resources, hst.table, hst.bound, hst.fits⟩

/-- The bindings that a stage starts from. -/
def seed : Option Task → List Binding
  | some t => t.bindings
  | none => []

/-- **The slots of a program** go to the resources of its offload in the order of use. -/
theorem program_shares {m : Module} {signature : Signature} {config : Config}
    {previous : Option Task} {p : Program} (ho : o ∈ m.groups) (hvs : vs.Nodup)
    (hseed : seed previous = Binding.consecutive 0 vs)
    (h : program m o signature config previous = .ok p) :
    Binding.Shares vs (m.uses o) (p.shader.globals.map Global.binding) := by
  obtain ⟨bindings, hbindings, h⟩ := bind_eq_ok.1 h
  obtain ⟨d, hd, h⟩ := bind_eq_ok.1 h
  cases h
  have hstart : BindingMap.ofBindings (seed previous) = .ok bindings := by
    rw [← orFault_eq_ok.1 hbindings]
    cases previous <;> rfl
  rw [hseed, BindingMap.ofBindings_consecutive hvs] at hstart
  cases hstart
  have hallotted : d.state.Allotted vs ((contextOf m o signature config previous).module.uses o) :=
    draft_allotted ho (allotted_start hvs) hd
  exact hallotted.shares

variable {m : Module} {signature : Signature} {config : Config} {t : Task}

/-- The slots of a task, by first use. -/
theorem generate_shares {previous : Option Task} (ho : o ∈ m.groups) (hvs : vs.Nodup)
    (hseed : seed previous = Binding.consecutive 0 vs)
    (h : generate m o signature config previous = .ok t) :
    Binding.Shares vs (m.uses o) t.bindings := by
  obtain ⟨p, hp, h⟩ := bind_eq_ok.1 h
  cases h
  exact program_shares ho hvs hseed hp

/-- A task that starts from nothing counts its slots from zero. -/
theorem bindings_of_generate (ho : o ∈ m.groups)
    (h : generate m o signature config none = .ok t) :
    t.bindings = Binding.consecutive 0 (m.uses o).eraseDups :=
  (generate_shares ho List.nodup_nil rfl h).eq_consecutive

end Codegen

end WgslKernel
