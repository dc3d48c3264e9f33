import WgslKernel.Proofs.Access.Reach
import WgslKernel.Proofs.Access.Uses
import WgslKernel.Proofs.Interface.Tokens
import WgslKernel.Proofs.Module.Partition

/-!
# Where statements are allowed, and what they may write

Some statements belong to one stage, some write what has to be writable, and a graphics stage is the
root of an offload or it is nothing.  Each lowering checks this for itself; `Legal` says what all
the checks come to.
-/

namespace WgslKernel

/-! ## Stages and protected targets -/

/-- The stage a statement belongs to, unless it belongs to all of them. -/
def Kind.stage? : Kind → Option Stage
  | globalStore .. | temporaryStore .. | atomic .. | atomicLoad _ | atomicStore ..
  | texture (.store _) _ _ | ret _ => some .compute
  | vertexInput .. | vertexOutput .. | builtinInput .vertexIndex | builtinInput .instanceIndex
  | builtinOutput (.position _) => some .vertex
  | fragmentInput .. | builtinInput .fragCoord | builtinOutput (.color ..)
  | builtinOutput (.fragDepth _) | derivative .. | discard => some .fragment
  | _ => none

theorem Kind.childBlocks_ne_nil {kind : Kind} (h : kind.isStructured = true) :
    kind.childBlocks ≠ [] := by
  cases kind <;> simp_all [isStructured, childBlocks]

/-- What keeps a field from being written in a stage: the stage comes before the field. -/
def Field.protected? (f : Field) (stage : Stage) : Option Protected :=
  if stage.isGraphics then some (.resource (.root f.buffer))
  else if f.writable then none
  else some (.field f.id)

/-- What keeps a resource from being written in a stage. -/
def Resource.protected? (r : Resource) (stage : Stage) : Option Protected :=
  if stage.isGraphics then some (.resource r) else none

namespace Module

/-- The field behind a pointer. -/
def fieldAt? (m : Module) (ptr : StmtId) : Option Field :=
  match m.kind? ptr with
  | some (.globalPtr f _ _) => some f
  | _ => none

/-- The field that a statement writes. -/
def writtenField? (m : Module) : Kind → Option Field
  | .globalStore ptr _ | .atomic _ ptr _ | .atomicStore ptr _ => m.fieldAt? ptr
  | _ => none

/-- What an atomic statement works on although it is protected; in a graphics stage that is also the
target of a load. -/
def atomicProtected? (m : Module) (stage : Stage) (write : Bool) (ptr : StmtId) :
    Option Protected :=
  match m.kind? ptr with
  | some (.globalPtr f _ _) =>
    if write then f.protected? stage else (Resource.rootAtomic f.buffer).protected? stage
  | some (.temporary ..) => Resource.globalTmpsAtomic.protected? stage
  | _ => none

/-- What a statement would write although it is protected. -/
def protected? (m : Module) (stage : Stage) : Kind → Option Protected
  | .globalStore ptr _ => (m.fieldAt? ptr).bind fun f => f.protected? stage
  | .temporaryStore .. => Resource.globalTmps.protected? stage
  | .atomic _ ptr _ | .atomicStore ptr _ => m.atomicProtected? stage true ptr
  | .atomicLoad ptr => m.atomicProtected? stage false ptr
  | .texture (.store _) t _ => (Resource.storageTexture t.id).protected? stage
  | _ => none

theorem fieldAt?_eq_some {m : Module} {ptr : StmtId} {f : Field} :
    m.fieldAt? ptr = some f ↔
      ∃ indices offset, m.kind? ptr = some (.globalPtr f indices offset) := by
  unfold fieldAt?
  split
  · rename_i g indices offset hkind
    simp [hkind]
  · rename_i hkind
    simp only [reduceCtorEq, false_iff, not_exists]
    exact fun indices offset => hkind f indices offset

/-- Statement `x` is where it may be in offload `o`. -/
structure Legal (m : Module) (o : Offload) (x : StmtId) (kind : Kind) : Prop where
  root : ∀ body, kind = .vertexFor body ∨ kind = .fragmentFor body →
    o.kind ≠ .serial ∧ o.stmts = [x]
  stage : ∀ stage, kind.stage? = some stage → o.kind.stage = stage
  writable : ∀ f, m.writtenField? kind = some f → f.writable = true

/-- Statements that own blocks belong to no stage and write nothing. -/
theorem legal_of_childBlocks {m : Module} {o : Offload} {x : StmtId} {kind : Kind}
    (hblocks : kind.childBlocks ≠ [])
    (hroot : ∀ body, kind = .vertexFor body ∨ kind = .fragmentFor body →
      o.kind ≠ .serial ∧ o.stmts = [x]) : m.Legal o x kind := by
  refine ⟨hroot, fun stage hstage => ?_, fun f hf => ?_⟩
  · cases kind <;> simp_all [Kind.childBlocks, Kind.stage?]
  · cases kind <;> simp_all [Kind.childBlocks, writtenField?]

/-- What is nested in statements is in their outline. -/
theorem Inv.mem_stmts_of_nestedIn {m : Module} (h : m.Inv) {top : List StmtId} {x : StmtId}
    {t : Stmt} (hx : m.NestedIn top x) (ht : m.stmts[x]? = some t) :
    t ∈ (m.outlineOf m.outline top).stmts := by
  obtain ⟨i, hi, hunder⟩ := hx
  obtain ⟨s, hs⟩ : ∃ s, m.stmts[i]? = some s := by
    rcases hunder with rfl | ⟨s, -, -, hs, -⟩
    · exact ⟨t, ht⟩
    · exact ⟨s, hs⟩
  have hfound : x ∈ (m.outlineOf m.outline top).ids := by
    rw [outlineOf_ids]
    exact List.mem_flatMap.2 ⟨i, hi, (h.mem_subtree hs).2 hunder⟩
  obtain ⟨u, hu, rfl⟩ := List.mem_map.1 hfound
  obtain ⟨j, hj⟩ := found_of_mem_outlineOf (fun b v hv => found_of_mem_outline hv) hu
  rw [h.id_eq hj, hj] at ht
  cases ht
  exact hu

end Module

namespace Codegen

variable {ctx : Context} {values : Values} {s : Stmt} {l : Lowering} {st : State} {o : Offload}
  {m : Module} {signature : Signature} {config : Config} {previous : Option Task}

/-! ## Statements of a shader are legal -/

/-- A statement of one stage was lowered in that stage. -/
theorem Lowers.stage_eq (h : Lowers ctx values s l) {stage : Stage}
    (hstage : s.kind.stage? = some stage) : ctx.stage = stage := by
  cases h with
  | globalStore hkind _ hwritable =>
    rw [hkind] at hstage
    cases hstage
    exact (checkFieldWritable_eq_ok.1 hwritable).1
  | temporaryStore hkind hwritable | textureStore hkind _ hwritable =>
    rw [hkind] at hstage
    cases hstage
    exact checkWritable_eq_ok.1 hwritable
  | atomicInt hkind htarget | atomicFloat hkind htarget | atomicLoad hkind htarget
  | atomicStore hkind htarget =>
    rw [hkind] at hstage
    cases hstage
    exact (atomicTarget_cases htarget).1
  | ret hkind h | vertexInput hkind h | vertexOutput hkind h | vertexIndex hkind h
  | instanceIndex hkind h | position hkind h | fragmentInput hkind h | fragCoord hkind h
  | color hkind h | fragDepth hkind h | derivative hkind h | discard hkind h =>
    rw [hkind] at hstage
    cases hstage
    exact h
  | const hkind | gridIndex hkind | counter hkind | argLoad hkind | rand hkind | unary hkind
  | binary hkind | exitLoop hkind | nextIteration hkind | alloca hkind | localLoad hkind
  | localStore hkind | globalPtr hkind | globalLoad hkind | temporary hkind | temporaryLoad hkind
  | sample hkind | sampleLod hkind | textureLoad hkind | extract hkind =>
    rw [hkind] at hstage
    cases hstage

/-- A store was lowered, so the field is writable. -/
theorem Lowers.writable (h : Lowers ctx values s l) {f : Field}
    (hf : ctx.module.writtenField? s.kind = some f) : f.writable = true := by
  have hatomic {ptr : StmtId} {target : AtomicTarget}
      (htarget : atomicTarget ctx values s.id ptr true = .ok target)
      (hf : ctx.module.fieldAt? ptr = some f) : f.writable = true := by
    obtain ⟨indices, offset, hptr⟩ := Module.fieldAt?_eq_some.1 hf
    obtain ⟨-, v, -, ⟨g, indices', offset', hkind, hwritable, -⟩ | ⟨ty, offset', hkind, -⟩⟩ :=
      atomicTarget_cases htarget
    · rw [hptr] at hkind
      cases hkind
      exact hwritable rfl
    · rw [hptr] at hkind
      cases hkind
  cases h with
  | globalStore hkind hfield hwritable =>
    rw [hkind] at hf
    obtain ⟨indices, offset, hptr⟩ := Module.fieldAt?_eq_some.1 hf
    obtain ⟨indices', offset', hptr'⟩ := fieldOf_eq_ok hfield
    rw [hptr] at hptr'
    cases hptr'
    exact (checkFieldWritable_eq_ok.1 hwritable).2
  | atomicInt hkind htarget | atomicFloat hkind htarget | atomicStore hkind htarget =>
    rw [hkind] at hf
    exact hatomic htarget hf
  | const hkind | gridIndex hkind | counter hkind | argLoad hkind | rand hkind | unary hkind
  | binary hkind | exitLoop hkind | nextIteration hkind | alloca hkind | localLoad hkind
  | localStore hkind | globalPtr hkind | globalLoad hkind | temporary hkind | temporaryLoad hkind
  | temporaryStore hkind | atomicLoad hkind | vertexInput hkind | vertexOutput hkind
  | fragmentInput hkind | vertexIndex hkind | instanceIndex hkind | fragCoord hkind
  | position hkind | color hkind | fragDepth hkind | derivative hkind | discard hkind
  | sample hkind | sampleLod hkind | textureLoad hkind | textureStore hkind | extract hkind
  | ret hkind =>
    rw [hkind] at hf
    cases hf

/-- A graphics stage is not lowered inside another statement. -/
theorem Lowers.not_stage (h : Lowers ctx values s l) (body : BlockId) :
    s.kind ≠ .vertexFor body ∧ s.kind ≠ .fragmentFor body := by
  constructor
  all_goals
    intro hk
    cases h <;> simp_all

/-- **The statements of a shader that was generated are legal.** -/
theorem legal_of_generate {task : Task} (hinv : m.Inv)
    (ho : o.kind ≠ .serial → ∃ root, o.stmts = [root])
    (h : generate m o signature config previous = .ok task) {x : StmtId}
    (hx : m.NestedIn o.stmts x) (hs : m.stmts[x]? = some s) : m.Legal o x s.kind := by
  obtain ⟨p, hp, -⟩ := bind_eq_ok.1 h
  obtain ⟨bindings, d, hd, -⟩ := program_eq_ok hp
  obtain ⟨ctx', st₀, outline, code, hstarts, hwalk⟩ := starts_of_draft ho rfl hd
  have hmem : s ∈ (m.outlineOf m.outline o.stmts).stmts := hinv.mem_stmts_of_nestedIn hx hs
  rcases hstarts.mem_or_root hmem with hmem | ⟨hserial, ⟨root, hstmts, hroot⟩, hblocks⟩
  · cases hleaf : s.kind.isStructured with
    | true =>
      refine Module.legal_of_childBlocks (Kind.childBlocks_ne_nil hleaf) fun body hkind => ?_
      rcases hkind with hkind | hkind <;> simp [hkind, Kind.isStructured] at hleaf
    | false =>
      obtain ⟨values, l, hl⟩ := exists_lowers hwalk hstarts.owned hmem hleaf
      rw [hstarts.context_eq] at hl
      exact ⟨fun body hkind => absurd hkind (not_or.2 (hl.not_stage body)),
        fun stage hstage => hl.stage_eq hstage, fun f hf => hl.writable hf⟩
  · obtain rfl : root = x := by
      rw [← hinv.id_eq hs, ← hinv.id_eq hroot]
    exact Module.legal_of_childBlocks hblocks fun _ _ => ⟨hserial, hstmts⟩

/-! ## Writes to what is protected -/

/-- Each coordinate of a texture store is a scalar. -/
def ScalarCoords (ctx : Context) (values : Values) (s : Stmt) : Prop :=
  ∀ texel t coords, s.kind = .texture (.store texel) t coords →
    ∀ c ∈ coords, ∃ v, ctx.value values s.id c = .ok v ∧ v.type.components = 1

/-- Writing what the stage protects is refused. -/
theorem checkWritable_eq_error {id : StmtId} {r : Resource} {target : Protected}
    (h : r.protected? ctx.stage = some target) :
    ctx.checkWritable id r = .error (.error (.readOnlyResource id target ctx.stage)) := by
  unfold Resource.protected? at h
  split at h
  · cases h
    rw [Context.checkWritable, if_pos ‹_›]
    rfl
  · cases h

/-- The field is refused by the stage, or by itself. -/
theorem checkFieldWritable_eq_error {id : StmtId} {f : Field} {target : Protected}
    (h : f.protected? ctx.stage = some target) :
    checkFieldWritable ctx id f = .error (.error (.readOnlyResource id target ctx.stage)) := by
  unfold Field.protected? at h
  split at h
  · rename_i hstage
    cases h
    exact bind_eq_error.2 (.inl (checkWritable_eq_error (if_pos hstage)))
  · rename_i hstage
    split at h
    · cases h
    · rename_i hwritable
      cases h
      refine bind_eq_error.2 (.inr ⟨(), if_neg hstage, ?_⟩)
      exact if_neg hwritable

/-- An atomic on something protected is refused. -/
theorem atomicTarget_eq_error {id ptr : StmtId} {write : Bool} {target : Protected}
    (h : ctx.module.atomicProtected? ctx.stage write ptr = some target) :
    atomicTarget ctx values id ptr write =
      .error (.error (.readOnlyResource id target ctx.stage)) := by
  unfold Module.atomicProtected? at h
  split at h
  · rename_i f indices offset hkind
    refine bind_eq_error.2 (.inr ⟨_, kindOf_eq_ok.2 hkind, ?_⟩)
    split at h
    · rename_i hwrite
      subst hwrite
      exact bind_eq_error.2 (.inl (checkFieldWritable_eq_error h))
    · rename_i hwrite
      rw [Bool.not_eq_true] at hwrite
      subst hwrite
      exact bind_eq_error.2 (.inl (checkWritable_eq_error h))
  · rename_i hkind
    refine bind_eq_error.2 (.inr ⟨_, kindOf_eq_ok.2 hkind, ?_⟩)
    exact bind_eq_error.2 (.inl (checkWritable_eq_error h))
  · cases h

/-- **Writing what is protected is refused**, whatever else is wrong with the statement. -/
theorem lower_eq_error_of_protected {target : Protected}
    (h : ctx.module.protected? ctx.stage s.kind = some target)
    (hcoords : ScalarCoords ctx values s) :
    lower ctx values s = .error (.error (.readOnlyResource s.id target ctx.stage)) := by
  unfold Module.protected? at h
  rw [lower]
  split at h
  · rename_i ptr x hkind
    obtain ⟨f, hf, h⟩ := Option.bind_eq_some_iff.1 h
    obtain ⟨indices, offset, hptr⟩ := Module.fieldAt?_eq_some.1 hf
    have hfield : fieldOf ctx s.id ptr = .ok f := bind_eq_ok.2 ⟨_, kindOf_eq_ok.2 hptr, rfl⟩
    simp only [hkind]
    exact bind_eq_error.2 (.inr ⟨f, hfield, bind_eq_error.2 (.inl (checkFieldWritable_eq_error h))⟩)
  · rename_i hkind
    simp only [hkind]
    exact bind_eq_error.2 (.inl (checkWritable_eq_error h))
  · rename_i hkind
    simp only [hkind]
    exact bind_eq_error.2 (.inl (atomicTarget_eq_error h))
  · rename_i hkind
    simp only [hkind]
    exact bind_eq_error.2 (.inl (atomicTarget_eq_error h))
  · rename_i hkind
    simp only [hkind]
    exact bind_eq_error.2 (.inl (atomicTarget_eq_error h))
  · rename_i texel t coords hkind
    have hscalars : ∀ c ∈ coords, ∃ v, ctx.scalar values s.id c = .ok v := by
      intro c hc
      obtain ⟨v, hv, hone⟩ := hcoords texel t coords hkind c hc
      exact ⟨v, bind_eq_ok.2 ⟨v, hv, if_pos (by simp [ValueType.isScalar, hone])⟩⟩
    obtain ⟨cs, hcs⟩ := exists_mapM hscalars
    simp only [hkind]
    exact bind_eq_error.2 (.inr ⟨cs, hcs, bind_eq_error.2 (.inl (checkWritable_eq_error h))⟩)
  · cases h

/-- **A write to something protected**, if it is reached, is the outcome of the offload. -/
theorem Reached.readOnly {target : Protected} (h : Reached m o signature config previous st s)
    (hprotected : m.protected? o.kind.stage s.kind = some target)
    (hcoords : ScalarCoords (contextOf m o signature config previous) st.values s) :
    generate m o signature config previous =
      .error (.error (.readOnlyResource s.id target o.kind.stage)) := by
  refine h.generate_eq_error ?_ fun grid => lower_eq_error_of_protected hprotected hcoords
  cases hkind : s.kind <;> simp_all [Module.protected?, Kind.isStructured]

/-! ## Declarations of a shader -/

/-- What a program declares is on the list. -/
theorem declares_of_program {p : Program} (ho : o.kind ≠ .serial → ∃ root, o.stmts = [root])
    (h : program m o signature config previous = .ok p) : ∀ g ∈ p.shader.globals,
      Declares (contextOf m o signature config previous) g.binding.resource g.declaration := by
  obtain ⟨bindings, d, hd, rfl⟩ := program_eq_ok h
  exact draft_declares ho hd (by simp [State.Declares])

end Codegen

namespace Session

open Codegen

variable {actions : List Action} {s : Session} {m : Module}

/-- **Write protection and stage legality.**  If an offload is generated, every statement nested in
it is legal there.  What the shader declares is read off its text, and a buffer that is declared
for writing is one of a compute shader and not the argument block.  If generating it comes to a
statement that would write something protected, the outcome is the error about that statement. -/
theorem generate_protects (hrun : Session.run {} actions = .ok s)
    (hfinish : s.builder.finish = .ok m) (o : Offload)
    (ho : o.kind ≠ .serial → ∃ root, o.stmts = [root]) (signature : Signature) (config : Config)
    (previous : Option Task) :
    (∀ task, generate m o signature config previous = .ok task →
      (∀ x t, m.NestedIn o.stmts x → m.stmts[x]? = some t → m.Legal o x t.kind) ∧
      ∃ p, program m o signature config previous = .ok p ∧ task = p.task o.kind signature ∧
        ∀ g ∈ p.shader.globals, Declarations.readBuffer (tokens g.text) = g.declaration.buffer? ∧
          ∀ atomic length, g.declaration = .buffer atomic length true →
            o.kind.stage = .compute ∧ g.binding.resource ≠ .args) ∧
    ∀ st t target, Reached m o signature config previous st t →
      m.protected? o.kind.stage t.kind = some target →
      ScalarCoords (contextOf m o signature config previous) st.values t →
      generate m o signature config previous =
        .error (.error (.readOnlyResource t.id target o.kind.stage)) := by
  obtain ⟨hinv, -⟩ := inv_of_finish hrun hfinish
  refine ⟨fun task h => ⟨fun x t hx ht => legal_of_generate hinv ho h hx ht, ?_⟩,
    fun st t target hreached hprotected hcoords => hreached.readOnly hprotected hcoords⟩
  obtain ⟨p, hp, h⟩ := bind_eq_ok.1 h
  cases h
  refine ⟨p, hp, rfl, fun g hg => ⟨Declarations.readBuffer_global g, ?_⟩⟩
  intro atomic length hbuffer
  have hdeclares := declares_of_program ho hp g hg
  rw [hbuffer] at hdeclares
  exact hdeclares.of_writable

/-- A parallel loop that stores to a read-only field, under a condition, and a vertex stage. -/
def trespassing : List Action :=
  [.create (.const (.i32 4)), .create (.rangeFor (.value 0) false), .openGuard .rangeFor 1,
    .create (.loopIndex 1), .create (.branch 2), .openGuard (.branch true) 3,
    .create (.globalPtr ⟨7, [4], .i32, 1, 0, 0, false⟩ [2] 0), .create (.globalStore 4 2),
    .closeGuard 1, .closeGuard 0, .create .vertexFor, .openGuard .vertexFor 6,
    .create (.vertexInput .f32 0), .create (.positionOutput [7, 7, 7, 7]), .closeGuard 2]

/-- The loop is refused for its store, and the vertex stage is legal. -/
theorem generate_protects_trespassing :
    ∃ s m, Session.run {} trespassing = .ok s ∧ s.builder.finish = .ok m ∧
      m.groups = [⟨.rangeFor, [1]⟩, ⟨.vertexFor, [6]⟩] ∧
      generate m ⟨.rangeFor, [1]⟩ {} {} none =
        .error (.error (.readOnlyResource 5 (.field 7) .compute)) ∧
      ∃ task t, generate m ⟨.vertexFor, [6]⟩ {} {} none = .ok task ∧ m.stmts[8]? = some t ∧
        m.Legal ⟨.vertexFor, [6]⟩ 8 t.kind := by
  have hrun : ∃ s m task t st u, Session.run {} trespassing = .ok s ∧ s.builder.finish = .ok m ∧
      m.groups = [⟨.rangeFor, [1]⟩, ⟨.vertexFor, [6]⟩] ∧
      generate m ⟨.vertexFor, [6]⟩ {} {} none = .ok task ∧ m.stmts[8]? = some t ∧
      m.Under 6 8 ∧ Reached m ⟨.rangeFor, [1]⟩ {} {} none st u ∧
      u = ⟨5, 2, .globalStore 4 2⟩ ∧ m.protected? .compute u.kind = some (.field 7) := by
    exact ⟨_, _, _, _, _, _, rfl, rfl, rfl, rfl, rfl,
      .inr ⟨_, _, 4, rfl, List.mem_singleton_self 4, rfl, .refl⟩,
      -- The loop index is passed, the branch entered, and the pointer passed.
      ⟨_, _, _, _, rfl, .rangeFor rfl rfl rfl rfl rfl rfl rfl,
        .later rfl (.thenPart rfl rfl (.later rfl .here))⟩, rfl, rfl⟩
  obtain ⟨s, m, task, t, st, u, hrun, hfinish, hgroups, hok, ht, hunder, hreached, rfl,
    hprotected⟩ := hrun
  have hloop := generate_protects hrun hfinish ⟨.rangeFor, [1]⟩ (fun _ => ⟨1, rfl⟩) {} {} none
  have hvertex := generate_protects hrun hfinish ⟨.vertexFor, [6]⟩ (fun _ => ⟨6, rfl⟩) {} {} none
  refine ⟨s, m, hrun, hfinish, hgroups, hloop.2 st _ _ hreached hprotected ?_, task, t, hok, ht,
    (hvertex.1 task hok).1 8 t ⟨6, List.mem_singleton_self 6, hunder⟩ ht⟩
  intro texel texture coords hkind
  cases hkind

end Session

end WgslKernel
