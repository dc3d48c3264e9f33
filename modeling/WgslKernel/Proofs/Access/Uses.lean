import WgslKernel.Proofs.Bindings.FirstUse

/-!
# How resources are declared

A shader declares a resource in the way of the statement that uses it first, so two statements that
use one resource had better agree on it.  They do: `Declares` lists the declaration of each resource
and the stage it can be used in, and every use that is made is on the list.
-/

namespace WgslKernel.Codegen

variable {ctx : Context} {values : Values} {s : Stmt} {l : Lowering} {st : State}

/-! ## Declarations -/

/-- The resources that a shader can use, each with its declaration. -/
inductive Declares (ctx : Context) : Resource → Declaration → Prop where
  | root (buffer : Nat) : Declares ctx (.root buffer) (.buffer false none ctx.buffersWritable)
  | rootAtomic (buffer : Nat) (hstage : ctx.stage = .compute) :
    Declares ctx (.rootAtomic buffer) (.buffer true none true)
  | globalTmps :
    Declares ctx .globalTmps (.buffer false (some ctx.config.globalTmpsWords) ctx.buffersWritable)
  | globalTmpsAtomic (hstage : ctx.stage = .compute) :
    Declares ctx .globalTmpsAtomic (.buffer true (some ctx.config.globalTmpsWords) true)
  | args :
    Declares ctx .args (.buffer false (some (Config.ceilDiv ctx.signature.argBytes 4)) false)
  | rets (hstage : ctx.stage = .compute) :
    Declares ctx .rets (.buffer false (some (Config.ceilDiv ctx.signature.retBytes 4)) true)
  | texture (id : Nat) (type : Handle) : Declares ctx (.texture id) (.handle type)
  | storageTexture (id : Nat) (type : Handle) (hstage : ctx.stage = .compute) :
    Declares ctx (.storageTexture id) (.handle type)
  | sampler (id : Nat) : Declares ctx (.sampler id) (.handle .sampler)

/-- A writable buffer is one of a compute shader, and not the argument block. -/
theorem Declares.of_writable {r : Resource} {atomic : Bool} {length : Option Nat}
    (h : Declares ctx r (.buffer atomic length true)) : ctx.stage = .compute ∧ r ≠ .args := by
  generalize hd : Declaration.buffer atomic length true = d at h
  cases h with
  | root | globalTmps =>
    injection hd with _ _ hwritable
    exact ⟨by simpa [Context.buffersWritable] using hwritable.symm, by simp [Resource.root,
      Resource.globalTmps, Resource.args]⟩
  | rootAtomic _ hstage | globalTmpsAtomic hstage | rets hstage =>
    exact ⟨hstage, by simp [Resource.rootAtomic, Resource.globalTmpsAtomic, Resource.rets,
      Resource.args]⟩
  | args | texture | storageTexture | sampler => cases hd

/-- A buffer has one declaration. -/
theorem Declares.eq_buffer {r : Resource} {decl : Declaration} {atomic writable : Bool}
    {length : Option Nat} (h : Declares ctx r decl)
    (hbuffer : Declares ctx r (.buffer atomic length writable)) :
    decl = .buffer atomic length writable := by
  cases h <;> cases hbuffer <;> rfl

theorem useTexture_declares {id : StmtId} {t : Texture} {u : Use} (h : useTexture id t = .ok u) :
    Declares ctx u.resource u.declaration := by
  unfold useTexture at h
  split at h
  · simp at h
  · cases h
    exact .texture ..
  · cases h
    exact .texture ..

theorem useStorageTexture_declares {id : StmtId} {t : Texture} {u : Use}
    (hstage : ctx.stage = .compute) (h : useStorageTexture id t = .ok u) :
    Declares ctx u.resource u.declaration := by
  unfold useStorageTexture at h
  split at h
  · simp at h
  · split at h
    · simp at h
    · cases h
      exact .storageTexture _ _ hstage

/-- **Statements use resources as they are declared.** -/
theorem Lowers.declares (h : Lowers ctx values s l) :
    ∀ u ∈ l.uses, Declares ctx u.resource u.declaration := by
  have hnone : ∀ u ∈ ([] : List Use), Declares ctx u.resource u.declaration := by simp
  have hone {u : Use} (hu : Declares ctx u.resource u.declaration) :
      ∀ w ∈ [u], Declares ctx w.resource w.declaration := by simpa using hu
  have hatomic {ptr : StmtId} {write : Bool} {target : AtomicTarget}
      (htarget : atomicTarget ctx values s.id ptr write = .ok target) :
      ∀ u ∈ [target.use], Declares ctx u.resource u.declaration := by
    obtain ⟨hstage, v, -, ⟨f, -, -, -, -, rfl⟩ | ⟨ty, -, -, rfl⟩⟩ := atomicTarget_cases htarget
    · exact hone (.rootAtomic _ hstage)
    · exact hone (.globalTmpsAtomic hstage)
  cases h with
  | argLoad => exact hone .args
  | rand | temporaryLoad | temporaryStore => exact hone .globalTmps
  | globalLoad | globalStore => exact hone (.root _)
  | atomicInt _ htarget | atomicFloat _ htarget | atomicLoad _ htarget | atomicStore _ htarget =>
    exact hatomic htarget
  | sample _ _ hl | sampleLod _ _ _ hl =>
    obtain ⟨use, e, type, huse, -, rfl⟩ := sampleTexture_eq_ok hl
    exact List.forall_mem_cons.2 ⟨useTexture_declares huse, hone (.sampler _)⟩
  | textureLoad _ _ _ huse => exact hone (useTexture_declares huse)
  | textureStore _ _ hwritable _ huse =>
    exact hone (useStorageTexture_declares (checkWritable_eq_ok.1 hwritable) huse)
  | ret _ hstage => exact hone (.rets hstage)
  | _ => exact hnone

/-- What a shader has declared so far is declared as it should be. -/
def State.Declares (ctx : Context) (st : State) : Prop :=
  ∀ g ∈ st.globals, Codegen.Declares ctx g.binding.resource g.declaration

/-- The parallel loop of a shader has no part in its declarations. -/
theorem Declares.gridLoop {r : Resource} {decl : Declaration} (grid : Option StmtId) :
    Declares { ctx with gridLoop := grid } r decl ↔ Declares ctx r decl := by
  constructor <;> intro h
  all_goals
    cases h with
    | root => exact .root _
    | rootAtomic _ hstage => exact .rootAtomic _ hstage
    | globalTmps => exact .globalTmps
    | globalTmpsAtomic hstage => exact .globalTmpsAtomic hstage
    | args => exact .args
    | rets hstage => exact .rets hstage
    | texture => exact .texture ..
    | storageTexture _ _ hstage => exact .storageTexture _ _ hstage
    | sampler => exact .sampler _

/-- **The declarations of a draft are those of its resources.** -/
theorem draft_declares {o : Offload} {d : Draft} (ho : o.kind ≠ .serial → ∃ root, o.stmts = [root])
    (h : draft ctx st o = .ok d) (hst : st.Declares ctx) : d.state.Declares ctx :=
  draft_globals ho (fun _ _ _ _ hl u hu => (Declares.gridLoop _).1 (hl.declares u hu)) .globalTmps
    hst h

end WgslKernel.Codegen
