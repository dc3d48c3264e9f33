import WgslKernel.Proofs.Buffers.Accesses

/-!
# Textures and their handles

A handle is told from others by its category and the number of the texture alone, so what is
declared is what the first statement requires, whatever later ones take the texture to be.  By
itself every access is lowered to a call that fits; in a shader it fits exactly if the first access
to the same handle requires the same type, and the generator does not check it.
-/

namespace WgslKernel

open List

/-! ## What the shading language asks for -/

namespace Texture

/-- The resource that a texture is accessed through. -/
def resource (t : Texture) : TextureAccess → Resource
  | .store _ => .storageTexture t.id
  | _ => .texture t.id

/-- The type of handle that an access requires.  There are no volumes of depths, and a texture that
is written is neither a cube nor one of depths. -/
def handle? (t : Texture) : TextureAccess → Option Handle
  | .store _ => if t.dim = .cube then none else t.format.storageName.map (.storage t.dim)
  | _ =>
    if t.format.isDepth then if t.dim = .d3 then none else some (.depth t.dim)
    else some (.sampled t.dim)

/-- What an access yields: a depth, or four floats, or nothing if it writes. -/
def texel (t : Texture) : TextureAccess → Ty
  | .store _ => .nothing
  | _ => if t.format.isDepth then .f32 else .data ⟨.f32, 4⟩

end Texture

/-- What is passed to a texture function beside the texture. -/
inductive TextureArg where
  | sampler
  | data (type : ShaderType)
  deriving DecidableEq

/-- What a texture function returns on a handle, given its other arguments.  A level is a float for
colours and an integer for depths and for texels that are loaded. -/
def Func.onTexture? (f : Func) (handle : Handle) (args : List TextureArg) : Option Ty :=
  match f, handle with
  | textureSample, .sampled dim =>
    if args = [.sampler, .data ⟨.f32, dim.coordCount⟩] then some (.data ⟨.f32, 4⟩) else none
  | textureSample, .depth dim =>
    if dim ≠ .d3 ∧ args = [.sampler, .data ⟨.f32, dim.coordCount⟩] then some .f32 else none
  | textureSampleLevel, .sampled dim =>
    if args = [.sampler, .data ⟨.f32, dim.coordCount⟩, .data ⟨.f32, 1⟩] then some (.data ⟨.f32, 4⟩)
    else none
  | textureSampleLevel, .depth dim =>
    if dim ≠ .d3 ∧ args = [.sampler, .data ⟨.f32, dim.coordCount⟩, .data ⟨.i32, 1⟩] then some .f32
    else none
  | textureLoad, .sampled dim =>
    if dim ≠ .cube ∧ args = [.data ⟨.i32, dim.coordCount⟩, .data ⟨.i32, 1⟩] then
      some (.data ⟨.f32, 4⟩)
    else none
  | textureLoad, .depth dim =>
    if dim = .d2 ∧ args = [.data ⟨.i32, 2⟩, .data ⟨.i32, 1⟩] then some .f32 else none
  | textureStore, .storage dim _ =>
    if dim ≠ .cube ∧ args = [.data ⟨.i32, dim.coordCount⟩, .data ⟨.f32, 4⟩] then some .nothing
    else none
  | _, _ => none

/-- What an expression passes to a function on a texture: a sampler, a scalar or a vector. -/
inductive Texture.Passes (t : Texture) : Expr → TextureArg → Prop where
  | sampler : Passes t (.ident (.resource (.sampler t.id))) .sampler
  | zero (prim : Prim) : Passes t (.zero prim) (.data ⟨prim.toScalar, 1⟩)
  | scalar {v : Codegen.Value} (prim : Prim) (h : v.type.isScalar = true) :
    Passes t (v.coerce prim 1) (.data ⟨prim.toScalar, 1⟩)
  | vector {vs : List Codegen.Value} (prim : Prim) (h : ∀ v ∈ vs, v.type.isScalar = true) :
    Passes t (.call (.construct ⟨prim.toScalar, vs.length⟩) (vs.map fun v => v.coerce prim 1))
      (.data ⟨prim.toScalar, vs.length⟩)

/-- A line for statement `id` that calls a function on the handle of a texture. -/
inductive Line.Calls (id : StmtId) (f : Func) (t : Texture) (r : Resource)
    (args : List TextureArg) : Line → Ty → Prop where
  | bound {type : ShaderType} {es : List Expr} (h : Forall₂ t.Passes es args) :
    Calls id f t r args
      (.letBind (.temp id) (some type) (.func f (.ident (.resource r) :: es))) (.data type)
  | performed {es : List Expr} (h : Forall₂ t.Passes es args) :
    Calls id f t r args (.perform (.func f (.ident (.resource r) :: es))) .nothing

/-- The declarations of a resource. -/
def Global.declarations (globals : List Global) (r : Resource) : List Declaration :=
  (globals.filter fun g => g.binding.resource = r).map Global.declaration

/-- Among the lines is a call for an access of statement `id` that returns a texel on a handle. -/
def Texture.Called (t : Texture) (id : StmtId) (access : TextureAccess) (handle : Handle)
    (lines : List Line) : Prop :=
  ∃ l ∈ lines, ∃ f args, l.Calls id f t (t.resource access) args (t.texel access) ∧
    f.onTexture? handle args = some (t.texel access)

/-- A texture access fits a shader: its handle is declared once, with the type that it requires, and
the call returns a texel on it. -/
def Shader.FitsTexture (s : Shader) (id : StmtId) (access : TextureAccess) (t : Texture) : Prop :=
  ∃ handle, t.handle? access = some handle ∧
    Global.declarations s.globals (t.resource access) = [.handle handle] ∧
    t.Called id access handle s.body.lines

/-- The type of handle that a statement requires of a resource. -/
def Kind.handle? (r : Resource) : Kind → Option Handle
  | .texture access t _ => if t.resource access = r then t.handle? access else none
  | _ => none

/-- Textures that are read, and textures that are written. -/
def Resource.isTexture (r : Resource) : Bool := r.kind = .texture ∨ r.kind = .storageTexture

theorem Texture.isTexture_resource (t : Texture) (access : TextureAccess) :
    (t.resource access).isTexture = true := by
  cases access <;> rfl

namespace Codegen

variable {ctx : Context} {st st' : State} {values : Values} {s : Stmt} {l : Lowering}
  {id : StmtId} {access : TextureAccess} {t : Texture} {coords : List StmtId} {u : Use}
  {r : Resource} {decl : Option Declaration}

/-! ## What an access is lowered to -/

theorem useTexture_eq_ok (h : useTexture id t = .ok u) :
    ∃ handle, t.handle? .load = some handle ∧ u = ⟨.texture t.id, .handle handle⟩ := by
  unfold useTexture at h
  split at h
  · simp at h
  · rename_i hdepth hdim
    cases h
    exact ⟨_, by simp only [Texture.handle?, if_pos hdepth, if_neg hdim], rfl⟩
  · rename_i hdepth
    cases h
    exact ⟨_, by simp [Texture.handle?, hdepth], rfl⟩

theorem useStorageTexture_eq_ok {q : Quad} (h : useStorageTexture id t = .ok u) :
    ∃ handle, t.handle? (.store q) = some handle ∧
      u = ⟨.storageTexture t.id, .handle handle⟩ := by
  unfold useStorageTexture at h
  split at h
  · simp at h
  · rename_i format hformat
    split at h
    · simp at h
    · rename_i hdim
      cases h
      exact ⟨_, by rw [Texture.handle?, if_neg hdim, hformat]; rfl, rfl⟩

/-- Coordinates are a vector, and there are as many as the texture has directions. -/
theorem passes_vectorOf {cs : List Value} (prim : Prim)
    (hcs : coords.mapM (ctx.scalar values id) = .ok cs)
    (hcoords : coords.length = t.dim.coordCount) :
    t.Passes (vectorOf cs prim) (.data ⟨prim.toScalar, t.dim.coordCount⟩) := by
  have hlength : cs.length = t.dim.coordCount := (mapM_eq_ok.1 hcs).length_eq.symm.trans hcoords
  have hscalars : ∀ v ∈ cs, v.type.isScalar = true := by
    intro v hv
    obtain ⟨x, -, hx⟩ := exists_of_mem_mapM hcs hv
    exact (scalar_eq_ok.1 hx).2
  unfold vectorOf
  split
  · rename_i e he
    have hone := congrArg List.length he
    rw [length_map, hlength] at hone
    cases hdim : t.dim <;> rw [hdim] at hone <;> cases hone
  · rw [length_map, ← hlength]
    exact .vector prim hscalars

theorem floatOperands_eq_ok {xs : List StmtId} {es : List Expr}
    (h : xs.mapM (floatOperand ctx values id) = .ok es) :
    ∃ vs : List Value, es = vs.map (fun v => v.coerce .f32 1) ∧
      ∀ v ∈ vs, v.type.isScalar = true := by
  have hall := mapM_eq_ok.1 h
  clear h
  induction hall with
  | nil => exact ⟨[], rfl, by simp⟩
  | cons he _ ih =>
    obtain ⟨vs, rfl, hvs⟩ := ih
    obtain ⟨v, hv, he⟩ := bind_eq_ok.1 he
    obtain ⟨⟨⟩, -, he⟩ := bind_eq_ok.1 he
    cases he
    exact ⟨v :: vs, rfl, forall_mem_cons.2 ⟨(scalar_eq_ok.1 hv).2, hvs⟩⟩

/-- The texel that is stored is four floats. -/
theorem passes_floatVector {q : Quad} {e : Expr} (h : floatVector ctx values id q = .ok e) :
    t.Passes e (.data ⟨.f32, 4⟩) := by
  obtain ⟨es, hes, h⟩ := bind_eq_ok.1 h
  cases h
  have hlength : es.length = 4 := (mapM_eq_ok.1 hes).length_eq.symm
  obtain ⟨vs, rfl, hvs⟩ := floatOperands_eq_ok hes
  rw [length_map] at hlength
  rw [← hlength]
  exact .vector .f32 hvs

theorem texel_of_shaderType {type : ShaderType} (h : shaderType id (texelType t) = .ok type) :
    t.texel .load = .data type := by
  unfold texelType at h
  unfold Texture.texel
  split at h <;> cases h <;> simp_all [Ty.f32, ValueType.ofPrim]

variable {handle : Handle}

/-- What a sample returns. -/
theorem onTexture?_sample (h : t.handle? .load = some handle) :
    Func.textureSample.onTexture? handle [.sampler, .data ⟨.f32, t.dim.coordCount⟩] =
      some (t.texel .load) ∧
    Func.textureSampleLevel.onTexture? handle [.sampler, .data ⟨.f32, t.dim.coordCount⟩,
      .data ⟨(if t.format.isDepth then Prim.i32 else .f32).toScalar, 1⟩] =
      some (t.texel .load) := by
  simp only [Texture.handle?] at h
  split at h
  · obtain ⟨hdim, h⟩ := Option.ite_none_left_eq_some.1 h
    cases h
    simp [Func.onTexture?, Texture.texel, Prim.toScalar, *]
  · cases h
    simp [Func.onTexture?, Texture.texel, Prim.toScalar, *]

/-- What a load returns. -/
theorem onTexture?_load (hdim : t.dim ≠ .cube) (h : t.handle? .load = some handle) :
    Func.textureLoad.onTexture? handle [.data ⟨.i32, t.dim.coordCount⟩, .data ⟨.i32, 1⟩] =
      some (t.texel .load) := by
  simp only [Texture.handle?] at h
  split at h
  · obtain ⟨hdim', h⟩ := Option.ite_none_left_eq_some.1 h
    cases h
    cases hd : t.dim <;> simp_all [Func.onTexture?, Texture.texel, TextureDim.coordCount]
  · cases h
    simp [Func.onTexture?, Texture.texel, *]

/-- What a store takes. -/
theorem onTexture?_store {q : Quad} (h : t.handle? (.store q) = some handle) :
    Func.textureStore.onTexture? handle [.data ⟨.i32, t.dim.coordCount⟩, .data ⟨.f32, 4⟩] =
      some (t.texel (.store q)) := by
  simp only [Texture.handle?, Option.ite_none_left_eq_some, Option.map_eq_some_iff] at h
  obtain ⟨hdim, format, -, rfl⟩ := h
  simp [Func.onTexture?, Texture.texel, hdim]

/-- A lowering accesses a texture through one handle: it uses it, and calls a function on it. -/
structure Lowering.Accesses (l : Lowering) (id : StmtId) (access : TextureAccess) (t : Texture)
    (handle : Handle) : Prop where
  required : t.handle? access = some handle
  uses : ∃ others, l.uses = ⟨t.resource access, .handle handle⟩ :: others ∧
    ∀ u ∈ others, u.resource.isTexture = false
  called : t.Called id access handle l.code.lines

/-- A sample goes through one handle. -/
theorem sampleTexture_accesses {cs : List Value} {level : Option Value}
    (hcs : coords.mapM (ctx.scalar values id) = .ok cs)
    (hcoords : coords.length = t.dim.coordCount)
    (hlevel : ∀ v ∈ level, v.type.isScalar = true)
    (h : sampleTexture ctx id t cs level = .ok l) :
    ∃ handle, l.Accesses id .sample t handle := by
  obtain ⟨u, hu, h⟩ := bind_eq_ok.1 h
  obtain ⟨type, htype, rfl⟩ := define_eq_ok.1 h
  obtain ⟨handle, hhandle, rfl⟩ := useTexture_eq_ok hu
  have hparts : t.Passes (vectorOf cs .f32) (.data ⟨.f32, t.dim.coordCount⟩) :=
    passes_vectorOf .f32 hcs hcoords
  obtain ⟨hsample, hsampleLevel⟩ := onTexture?_sample hhandle
  refine ⟨handle, hhandle, ⟨_, rfl, by simp [Resource.isTexture, Resource.sampler]⟩, _,
    mem_cons_self, ?_⟩
  rw [texel_of_shaderType htype] at hsample hsampleLevel
  rw [show t.texel .sample = .data type from texel_of_shaderType htype]
  cases level with
  | some v =>
    exact ⟨_, _, .bound (.cons .sampler (.cons hparts (.cons (.scalar _ (hlevel v rfl)) .nil))),
      hsampleLevel⟩
  | none =>
    dsimp only
    split
    · exact ⟨_, _, .bound (.cons .sampler (.cons hparts .nil)), hsample⟩
    · exact ⟨_, _, .bound (.cons .sampler (.cons hparts (.cons (.zero _) .nil))), hsampleLevel⟩

/-- **Every access is a call that fits the handle its texture requires.** -/
theorem lowerTexture_accesses (hcoords : coords.length = t.dim.coordCount)
    (h : lowerTexture ctx values id access t coords = .ok l) :
    ∃ handle, l.Accesses id access t handle := by
  obtain ⟨cs, hcs, h⟩ := bind_eq_ok.1 h
  cases access with
  | sample => exact sampleTexture_accesses hcs hcoords (by simp) h
  | sampleLod level =>
    obtain ⟨v, hv, h⟩ := bind_eq_ok.1 h
    obtain ⟨handle, hl⟩ := sampleTexture_accesses hcs hcoords
      (by simpa using (scalar_eq_ok.1 hv).2) h
    exact ⟨handle, hl.required, hl.uses, hl.called⟩
  | load =>
    dsimp only at h
    split at h
    · simp at h
    · rename_i hdim
      obtain ⟨u, hu, h⟩ := bind_eq_ok.1 h
      obtain ⟨type, htype, rfl⟩ := define_eq_ok.1 h
      obtain ⟨handle, hhandle, rfl⟩ := useTexture_eq_ok hu
      refine ⟨handle, hhandle, ⟨_, rfl, fun _ hu => absurd hu not_mem_nil⟩, _,
        mem_cons_self, _, _, ?_, onTexture?_load hdim hhandle⟩
      rw [texel_of_shaderType htype]
      exact .bound (.cons (passes_vectorOf .i32 hcs hcoords) (.cons (.zero .i32) .nil))
  | store q =>
    obtain ⟨⟨⟩, -, h⟩ := bind_eq_ok.1 h
    obtain ⟨v, hv, h⟩ := bind_eq_ok.1 h
    obtain ⟨u, hu, h⟩ := bind_eq_ok.1 h
    cases h
    obtain ⟨handle, hhandle, rfl⟩ := useStorageTexture_eq_ok (q := q) hu
    refine ⟨handle, hhandle, ⟨_, rfl, fun _ hu => absurd hu not_mem_nil⟩, _,
      mem_cons_self, _, _, ?_, onTexture?_store hhandle⟩
    exact .performed (.cons (passes_vectorOf .i32 hcs hcoords) (.cons (passes_floatVector hv) .nil))

/-! ## What is declared -/

/-- What a use declares a resource as. -/
def Use.declares? (u : Use) (r : Resource) : Option Declaration :=
  if u.resource = r then some u.declaration else none

/-- What a state has declared a resource as, if it has. -/
def State.Records (st : State) (r : Resource) (decl : Option Declaration) : Prop :=
  Global.declarations st.globals r = decl.toList

/-- A resource is declared at its first use. -/
theorem use_records (hst : st.Records r decl) (h : st.use u = .ok st') :
    st'.Records r (decl.or (u.declares? r)) := by
  have hany : (st.globals.any fun g => g.binding.resource = r) = decl.isSome := by
    have hlength := congrArg List.isEmpty hst
    cases decl <;> simp_all [Global.declarations, filter_eq_nil_iff]
  obtain ⟨hsome, rfl⟩ | ⟨hnone, bindings, slot, rfl⟩ := use_cases h
  · by_cases hr : u.resource = r
    · rw [hr, hany] at hsome
      cases decl <;> simp_all [State.Records, Use.declares?]
    · simpa [Use.declares?, hr] using hst
  · rw [State.Records, Global.declarations, filter_append, map_append, ← Global.declarations, hst]
    by_cases hr : u.resource = r
    · rw [hr, hany] at hnone
      cases decl <;> simp_all [Use.declares?]
    · simp [Use.declares?, hr]

theorem uses_records {uses : List Use} (hst : st.Records r decl)
    (h : uses.foldlM State.use st = .ok st') :
    st'.Records r (decl.or (uses.findSome? fun u => u.declares? r)) := by
  induction uses generalizing st decl with
  | nil =>
    cases h
    simpa using hst
  | cons u uses ih =>
    rw [foldlM_cons] at h
    obtain ⟨st₁, hu, h⟩ := bind_eq_ok.1 h
    have hst' := ih (use_records hst hu) h
    rw [Option.or_assoc] at hst'
    cases hd : u.declares? r <;> simpa [hd] using hst'

/-- The first declaration of a handle is kept. -/
theorem apply_records (hst : st.Records r decl) (h : st.apply id l = .ok st') :
    st'.Records r (decl.or (l.uses.findSome? fun u => u.declares? r)) := by
  obtain ⟨_, _, _, _, huses, -, -, rfl⟩ := apply_eq_ok h
  have hrecords := uses_records hst huses
  exact hrecords

/-- Only texture statements work with textures. -/
theorem not_isTexture_of_mem {m : Module} {kind : Kind}
    (hkind : ∀ access t coords, kind ≠ .texture access t coords) (hr : r ∈ m.resources kind) :
    r.isTexture = false := by
  cases kind with
  | texture access t coords => exact absurd rfl (hkind access t coords)
  | globalLoad | globalStore | atomic | atomicLoad | atomicStore =>
    rw [Module.resources] at hr
    split at hr <;> simp_all <;> rfl
  | argLoad | ret | rand | temporaryLoad | temporaryStore =>
    rw [mem_singleton.1 hr]
    rfl
  | _ => exact absurd hr not_mem_nil

theorem not_isTexture_of_mem_bound {m : Module} {kind : Kind} (hr : r ∈ m.boundResources kind) :
    r.isTexture = false := by
  unfold Module.boundResources at hr
  split at hr
  · split at hr
    · rw [mem_singleton.1 hr]
      rfl
    · cases hr
  · cases hr

theorem declares?_eq_none {uses : List Use} (hr : r.isTexture = true)
    (h : ∀ u ∈ uses, u.resource.isTexture = false) :
    (uses.findSome? fun u => u.declares? r) = none := by
  rw [List.findSome?_eq_none_iff]
  intro u hu
  refine if_neg fun heq => ?_
  cases hr.symm.trans (heq ▸ h u hu)

/-- A statement declares a texture as its kind requires. -/
theorem declares_of_lower (hr : r.isTexture = true) (hleaf : s.kind.childBlocks = [])
    (hadmits : ctx.module.Admits s.block s.kind) (h : lower ctx values s = .ok l) :
    (l.uses.findSome? fun u => u.declares? r) = (s.kind.handle? r).map .handle := by
  by_cases htexture : ∃ access t coords, s.kind = .texture access t coords
  · obtain ⟨access, t, coords, hkind⟩ := htexture
    rw [hkind] at hadmits
    rw [lower, hkind] at h
    obtain ⟨handle, hl⟩ := lowerTexture_accesses hadmits h
    obtain ⟨others, huses, hothers⟩ := hl.uses
    rw [huses, List.findSome?_cons, declares?_eq_none hr hothers, hkind, Kind.handle?, hl.required]
    by_cases heq : t.resource access = r <;> simp [Use.declares?, heq]
  · have hnone : s.kind.handle? r = none := by
      unfold Kind.handle?
      split
      · exact absurd ⟨_, _, _, ‹_›⟩ htexture
      · rfl
    rw [hnone]
    refine declares?_eq_none hr fun u hu => ?_
    have hu : u.resource ∈ ctx.module.resources s.kind := by
      rw [← (lowers_of_lower hleaf h).resources]
      exact mem_map_of_mem hu
    exact not_isTexture_of_mem (fun access t coords hk => htexture ⟨access, t, coords, hk⟩) hu

/-- **A walk declares a texture as the first statement requires that names it.** -/
theorem Walks.records {o : Outline} {code : Code} (h : Walks ctx st o st' code) (ho : o.Owned)
    (hadmitted : ∀ s ∈ o.stmts, ctx.module.Admits s.block s.kind) (hr : r.isTexture = true)
    (hst : st.Records r decl) :
    st'.Records r (decl.or ((o.stmts.findSome? fun s => s.kind.handle? r).map .handle)) := by
  refine h.along (P := fun st walked => st.Records r
      (decl.or ((walked.findSome? fun s => s.kind.handle? r).map .handle))) ho
    (fun {_ _ s} _ hblocks hst => ?_) (fun {_ _ _ s _} hs hkind hlower happly hst => ?_) (by simpa)
  · have hnone : s.kind.handle? r = none := by
      cases hkind : s.kind <;> simp_all [Kind.childBlocks, Kind.handle?]
    simpa [List.findSome?_append, hnone] using hst
  · have hself := hadmitted s (hs.subset (by simp))
    have hst' := apply_records hst happly
    rw [declares_of_lower hr hkind hself hlower, Option.or_assoc, ← Option.map_or] at hst'
    simpa [List.findSome?_append] using hst'

variable {o : Offload} {d : Draft}

/-- **A draft declares a texture as the first statement requires that names it.** -/
theorem draft_records (ho : o ∈ ctx.module.groups)
    (hadmitted : ∀ s ∈ ctx.module.walked o, ctx.module.Admits s.block s.kind)
    (hr : r.isTexture = true) (hst : st.Records r none) (h : draft ctx st o = .ok d) :
    d.state.Records r
      (((ctx.module.walked o).findSome? fun s => s.kind.handle? r).map .handle) := by
  have hroot {root : Stmt} {b : BlockId} (hb : root.kind.childBlocks = [b])
      (hwalked : ctx.module.walked o = root :: (ctx.module.outline b).stmts) :
      (∀ s ∈ (ctx.module.outline b).stmts, ctx.module.Admits s.block s.kind) ∧
        ((ctx.module.walked o).findSome? fun s => s.kind.handle? r) =
          (ctx.module.outline b).stmts.findSome? fun s => s.kind.handle? r := by
    rw [hwalked] at hadmitted ⊢
    refine ⟨fun s hs => hadmitted s (mem_cons_of_mem _ hs), ?_⟩
    have hnone : root.kind.handle? r = none := by
      cases hk : root.kind <;> simp_all [Kind.childBlocks, Kind.handle?]
    simp [hnone]
  cases hk : o.kind with
  | serial =>
    obtain ⟨st', code, hwalks, rfl⟩ := draft_serial hk h
    exact hwalks.records (Module.owned_outlineOf (Module.owned_outline _) _) hadmitted hr hst
  | rangeFor =>
    obtain ⟨root, hstmts⟩ := Module.exists_root_of_mem_groups ho (by simp [hk])
    obtain ⟨s, bound, serial, body, b, st₀, n, st', code, hs, hrange, hb, huses, -, hwalks, rfl⟩ :=
      draft_rangeFor hk hstmts h
    have hchild : s.kind.childBlocks = [body] := by rw [hrange]; rfl
    obtain ⟨hinner, heq⟩ := hroot hchild (walked_standalone hs hstmts hchild)
    -- the bound is read from the temporaries
    have hbound : (b.uses.findSome? fun u => u.declares? r) = none := by
      refine declares?_eq_none hr fun u hu => ?_
      have hu : u.resource ∈ ctx.module.boundResources (.rangeFor bound serial body) := by
        rw [← hb.resources]
        exact mem_map_of_mem hu
      exact not_isTexture_of_mem_bound hu
    have hst₀ := uses_records hst huses
    rw [hbound] at hst₀
    rw [heq]
    exact hwalks.records (Module.owned_outline _ _) hinner hr hst₀
  | vertexFor | fragmentFor =>
    obtain ⟨root, hstmts⟩ := Module.exists_root_of_mem_groups ho (by simp [hk])
    obtain ⟨s, body, outputs, st', code, hs, hchild, -, -, hwalks, rfl⟩ :=
      draft_graphics (by simp [hk]) hstmts h
    obtain ⟨hinner, heq⟩ := hroot hchild (walked_standalone hs hstmts hchild)
    rw [heq]
    exact hwalks.records (Module.owned_outline _ _) hinner hr hst

/-- The lines of a statement are among those of the walk. -/
theorem Walks.lines_of_mem {o : Outline} {code : Code} (h : Walks ctx st o st' code) (ho : o.Owned)
    (hs : s ∈ o.stmts) (hleaf : s.kind.childBlocks = []) :
    ∃ values l, lower ctx values s = .ok l ∧ ∀ line ∈ l.code.lines, line ∈ code.lines := by
  induction h with
  | nil => exact absurd hs not_mem_nil
  | branch hkind _ _ hno _ ihFirst ihSecond ihRest =>
    obtain ⟨-, -, hfirst, hsecond, hrest⟩ := ho
    simp only [Outline.stmts, mem_cons, mem_append] at hs
    rw [branchCode_lines hno.done_of_isEmpty]
    rcases hs with rfl | hs | hs | hs
    · rw [hkind] at hleaf
      cases hleaf
    · obtain ⟨values, l, hl, hsub⟩ := ihFirst hfirst hs
      exact ⟨values, l, hl, fun line hline => by simp [hsub line hline]⟩
    · obtain ⟨values, l, hl, hsub⟩ := ihSecond hsecond hs
      exact ⟨values, l, hl, fun line hline => by simp [hsub line hline]⟩
    · obtain ⟨values, l, hl, hsub⟩ := ihRest hrest hs
      exact ⟨values, l, hl, fun line hline => by simp [hsub line hline]⟩
  | loop hkind _ _ ihFirst ihRest | count hkind _ _ _ ihFirst ihRest =>
    obtain ⟨-, hnil, hfirst, -, hrest⟩ := ho
    rw [hnil (by rw [hkind]; exact Nat.le_refl 1)] at hs
    simp only [Outline.stmts, mem_cons, mem_append] at hs
    rcases hs with rfl | hs | hs | hs
    · rw [hkind] at hleaf
      cases hleaf
    · obtain ⟨values, l, hl, hsub⟩ := ihFirst hfirst hs
      exact ⟨values, l, hl, fun line hline => by simp [Code.lines, hsub line hline]⟩
    · cases hs
    · obtain ⟨values, l, hl, hsub⟩ := ihRest hrest hs
      exact ⟨values, l, hl, fun line hline => by simp [Code.lines, hsub line hline]⟩
  | leaf hkind hlower happly _ ihRest =>
    obtain ⟨hfirst, hsecond, -, -, hrest⟩ := ho
    rw [hfirst (by rw [hkind]; rfl), hsecond (by rw [hkind]; exact Nat.zero_le 1)] at hs
    rcases mem_cons.1 hs with rfl | hs
    · exact ⟨_, _, hlower, fun line hline => by simp [hline]⟩
    · obtain ⟨values, l, hl, hsub⟩ := ihRest hrest hs
      exact ⟨values, l, hl, fun line hline => by simp [hsub line hline]⟩

/-- **In a draft** the handle of an access is declared as the first access to it requires. -/
theorem draft_texture {bindings : BindingMap} (hinv : ctx.module.Inv) (ho : o ∈ ctx.module.groups)
    (hadmitted : ∀ (i : Nat) (s : Stmt), ctx.module.stmts[i]? = some s →
      ctx.module.Admits s.block s.kind)
    (hstage : ctx.stage = o.kind.stage) (hgrid : ctx.gridLoop = none)
    (h : draft ctx { bindings } o = .ok d) (hs : s ∈ ctx.module.walked o)
    (hkind : s.kind = .texture access t coords) :
    ∃ first own,
      ((ctx.module.walked o).findSome? fun u => u.kind.handle? (t.resource access)) = some first ∧
      t.handle? access = some own ∧
      Global.declarations d.state.globals (t.resource access) = [.handle first] ∧
      t.Called s.id access own d.body.lines := by
  have hadmits (u : Stmt) (hu : u ∈ ctx.module.walked o) : ctx.module.Admits u.block u.kind :=
    hadmitted _ _ ((hinv.placed_offload ho).found_of_mem hu)
  have hrecords := draft_records ho hadmits (t.isTexture_resource access) (by rfl) h
  obtain ⟨grid, root, inner, around, start, code, hdrafted⟩ :=
    drafted_of_draft hinv ho hstage hgrid h
  have hleaf : s.kind.childBlocks = [] := by rw [hkind]; rfl
  have hinner : s ∈ inner.stmts := by
    rw [Module.walked, hdrafted.stmts] at hs
    exact (mem_append.1 hs).resolve_left fun hroot => (hdrafted.owns s hroot).2.1 hleaf
  obtain ⟨values, l, hlower, hlines⟩ := hdrafted.walks.lines_of_mem hdrafted.owned hinner hleaf
  have hcoords := hadmits s hs
  rw [hkind] at hcoords
  rw [lower, hkind] at hlower
  obtain ⟨own, hl⟩ := lowerTexture_accesses hcoords hlower
  obtain ⟨first, hfirst⟩ : ∃ first, ((ctx.module.walked o).findSome? fun u =>
      u.kind.handle? (t.resource access)) = some first := by
    refine Option.isSome_iff_exists.1 (List.findSome?_isSome_iff.2 ⟨s, hs, ?_⟩)
    rw [hkind, Kind.handle?, if_pos rfl, hl.required]
    rfl
  rw [hfirst] at hrecords
  refine ⟨first, own, hfirst, hl.required, hrecords, ?_⟩
  obtain ⟨line, hline, hcalls⟩ := hl.called
  refine ⟨line, ?_, hcalls⟩
  cases hdrafted.frame with
  | bare _ hbody => exact hbody ▸ hlines line hline
  | grid _ _ hbody => simp [hbody, Code.lines, hlines line hline]

end Codegen

namespace Session

open Codegen

variable {actions : List Action} {s : Session} {m : Module} {o : Offload} {signature : Signature}
  {config : Config} {previous : Option Task} {p : Program} {t : Stmt} {access : TextureAccess}
  {texture : Texture} {coords : List StmtId}

/-- **A texture access fits its shader exactly if the first access to the same handle requires the
same type.**  The handle is declared once and as the first access requires, and the call for the
access fits what its own texture requires. -/
theorem texture_fits_iff (hrun : Session.run {} actions = .ok s)
    (hfinish : s.builder.finish = .ok m) (ho : o ∈ m.groups)
    (hp : program m o signature config previous = .ok p)
    (ht : t ∈ m.walked o) (hkind : t.kind = .texture access texture coords) :
    ∃ first own,
      ((m.walked o).findSome? fun u => u.kind.handle? (texture.resource access)) = some first ∧
      texture.handle? access = some own ∧
      Global.declarations p.shader.globals (texture.resource access) = [.handle first] ∧
      texture.Called t.id access own p.shader.body.lines ∧
      (p.shader.FitsTexture t.id access texture ↔ first = own) := by
  obtain ⟨hinv, hadmitted⟩ := inv_of_finish hrun hfinish
  obtain ⟨bindings, d, hd, rfl⟩ := program_eq_ok hp
  obtain ⟨first, own, hfirst, hown, hdeclared, hcalled⟩ :=
    draft_texture hinv ho hadmitted rfl rfl hd ht hkind
  refine ⟨first, own, hfirst, hown, hdeclared, hcalled, ?_, ?_⟩
  · rintro ⟨handle, hhandle, hdeclared', -⟩
    cases hown.symm.trans hhandle
    cases hdeclared.symm.trans hdeclared'
    rfl
  · rintro rfl
    exact ⟨first, hown, hdeclared, hcalled⟩

/-- Two reads of one texture. -/
def readTwice : List Action :=
  [.create (.const (.i32 0)), .create (.textureLoad ⟨0, .d2, .rgba8Unorm⟩ [0, 0]),
    .create (.textureLoad ⟨0, .d2, .rgba16Float⟩ [0, 0])]

/-- Formats of one class require the same handle. -/
theorem texture_fits_iff_readTwice : ∃ s m p t u,
    Session.run {} readTwice = .ok s ∧ s.builder.finish = .ok m ∧
      m.groups = [⟨.serial, [1, 2]⟩] ∧ program m ⟨.serial, [1, 2]⟩ {} {} none = .ok p ∧
      m.walked ⟨.serial, [1, 2]⟩ = [t, u] ∧
      u.kind = .texture .load ⟨0, .d2, .rgba16Float⟩ [0, 0] ∧
      p.shader.FitsTexture u.id .load ⟨0, .d2, .rgba16Float⟩ := by
  obtain ⟨s, m, p, t, u, hrun, hfinish, hgroups, hp, hwalked, ht, hu⟩ : ∃ s m p t u,
      Session.run {} readTwice = .ok s ∧ s.builder.finish = .ok m ∧
        m.groups = [⟨.serial, [1, 2]⟩] ∧ program m ⟨.serial, [1, 2]⟩ {} {} none = .ok p ∧
        m.walked ⟨.serial, [1, 2]⟩ = [t, u] ∧
        t.kind = .texture .load ⟨0, .d2, .rgba8Unorm⟩ [0, 0] ∧
        u.kind = .texture .load ⟨0, .d2, .rgba16Float⟩ [0, 0] :=
    ⟨_, _, _, _, _, rfl, rfl, rfl, rfl, rfl, rfl, rfl⟩
  refine ⟨s, m, p, t, u, hrun, hfinish, hgroups, hp, hwalked, hu, ?_⟩
  obtain ⟨first, own, hfirst, hown, -, -, hfits⟩ :=
    texture_fits_iff hrun hfinish (by simp [hgroups]) hp (by simp [hwalked]) hu
  rw [hwalked, List.findSome?_cons, ht] at hfirst
  exact hfits.2 (Option.some.inj (hfirst.symm.trans hown))

/-- Two reads that take one texture for different ones. -/
def readAnew : List Action :=
  [.create (.const (.i32 0)), .create (.textureLoad ⟨0, .d2, .rgba8Unorm⟩ [0, 0]),
    .create (.textureLoad ⟨0, .d3, .rgba8Unorm⟩ [0, 0, 0])]

/-- The generator accepts accesses that do not fit. -/
theorem texture_misfits : ∃ s m p,
    Session.run {} readAnew = .ok s ∧ s.builder.finish = .ok m ∧
      m.groups = [⟨.serial, [1, 2]⟩] ∧ program m ⟨.serial, [1, 2]⟩ {} {} none = .ok p ∧
      m.kind? 2 = some (.texture .load ⟨0, .d3, .rgba8Unorm⟩ [0, 0, 0]) ∧
      Global.declarations p.shader.globals (.texture 0) = [.handle (.sampled .d2)] ∧
      ¬p.shader.FitsTexture 2 .load ⟨0, .d3, .rgba8Unorm⟩ := by
  refine ⟨_, _, _, rfl, rfl, rfl, rfl, rfl, rfl, ?_⟩
  rintro ⟨handle, hhandle, hdeclared, -⟩
  cases hhandle
  cases hdeclared

end Session

end WgslKernel
