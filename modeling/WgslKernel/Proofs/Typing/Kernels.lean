import WgslKernel.Proofs.Codegen.Offloads
import WgslKernel.Proofs.Module.Partition
import WgslKernel.Proofs.Typing.Walk

/-!
# Types of generated shaders

The shader of an offload without textures is well typed, its values are plain, and compiling never
ends with an error about the shapes of values (`generate_wellTyped`).
-/

namespace WgslKernel

open List

namespace Shader

variable {s : Shader}

theorem stageInput_mem_env (hstage : s.stage ≠ .compute) (h : s.layout.inputs ≠ []) :
    (.stageInput, ⟨.stage s.layout.inputs, false⟩) ∈ s.env := by
  refine mem_append_right _ ?_
  unfold entryEnv
  cases hs : s.stage with
  | compute => exact absurd hs hstage
  | vertex | fragment => simp [h]

theorem stageOutput_mem_env (hstage : s.stage ≠ .compute) (h : s.layout.outputs ≠ []) :
    (.stageOutput, ⟨.stage s.layout.outputs, true⟩) ∈ s.env := by
  refine mem_append_right _ ?_
  unfold entryEnv returnsOutput
  cases hs : s.stage with
  | compute => exact absurd hs hstage
  | vertex | fragment => simp [h, Stage.isGraphics]

theorem invocation_mem_env (hstage : s.stage = .compute) :
    (.globalInvocationId, ⟨.data ⟨.u32, 3⟩, false⟩) ∈ s.env ∧
      (.numWorkgroups, ⟨.data ⟨.u32, 3⟩, false⟩) ∈ s.env := by
  simp [env, entryEnv, hstage]

theorem randState_mem_env (h : s.random = true) : (.randState, ⟨.generator, true⟩) ∈ s.env := by
  simp [env, h]

end Shader

namespace Codegen

variable {ctx : Context} {st st' : State} {values : Values} {s : Stmt} {l : Lowering} {o : Offload}
  {d : Draft} {root : StmtId} {bindings : BindingMap} {Γ : Env}

/-- **What a walk collected is declared** ahead of the code of its shader. -/
theorem declared_of_has {kind : OffloadKind} (hdeclares : d.state.Declares ctx)
    (hsound : d.state.Sound ctx) {item : Item} (h : d.state.Has item) :
    item.Declared ctx (assemble ctx kind d).shader.env := by
  cases item with
  | resource r =>
    intro atomic writable length hbuffer
    obtain ⟨g, hg, rfl⟩ := mem_map.1 h
    have hentry : g.entry? = some (.resource g.binding.resource, ⟨.buffer atomic, writable⟩) := by
      rw [Global.entry?, (hdeclares g hg).eq_buffer hbuffer]
    exact mem_append_left _ (mem_append_left _ (mem_filterMap.2 ⟨g, hg, hentry⟩))
  | input member =>
    have hne := HasMember.ne_nil h
    have hmem := Shader.stageInput_mem_env (s := (assemble ctx kind d).shader)
      (fun hstage => (hsound.compute hstage).1 hne) hne
    exact .select (.ident hmem) (HasMember.member? h)
  | output member =>
    have hne := HasMember.ne_nil h
    have hmem := Shader.stageOutput_mem_env (s := (assemble ctx kind d).shader)
      (fun hstage => (hsound.compute hstage).2 hne) hne
    exact ⟨.select (.ident hmem) (HasMember.member? h), _, _, rfl, hmem⟩

/-! ## Lines around the code -/

/-- The end of the parallel loop, and its stride. -/
def gridNames : Env := [(.rangeEnd, ⟨.i32, false⟩), (.totalInvocs, ⟨.i32, false⟩)]

/-- The prologue of a parallel loop is typed. -/
theorem gridPrologue_typed (config : Config) {stop : Expr}
    (hgroups : (.numWorkgroups, ⟨.data ⟨.u32, 3⟩, false⟩) ∈ Γ) (hstop : HasType Γ stop .i32) :
    (Code.ofLines (gridPrologue config stop)).Typed Γ gridNames := by
  have hgroup : HasType Γ (.select (.ident .numWorkgroups) .x) .u32 := .select (.ident hgroups) rfl
  have hcount : HasType Γ (.convert ⟨.i32, 1⟩ (.select (.ident .numWorkgroups) .x)) .i32 :=
    hgroup.convert (.inl rfl)
  exact .line (.letInferred (hcount.arith (.int _) rfl))
    (.line (.letBind (hstop.mono (subset_cons_self _ _))) .done)

/-- The parallel loop is well typed behind them, if its body is. -/
theorem gridLoop_typed {body : Code} {Δ : Env}
    (hinvocation : (.globalInvocationId, ⟨.data ⟨.u32, 3⟩, false⟩) ∈ Γ)
    (hend : (.rangeEnd, ⟨.i32, false⟩) ∈ Γ) (hstride : (.totalInvocs, ⟨.i32, false⟩) ∈ Γ)
    (hbody : body.Typed (gridLoop.env ++ Γ) Δ) :
    (Code.countLoop gridLoop body .done).Typed Γ [] := by
  have hstart : HasType Γ (.select (.ident .globalInvocationId) .x) .u32 :=
    .select (.ident hinvocation) rfl
  exact .countLoop (hstart.convert (.inl rfl)) (.ident (mem_append_right _ hend))
    (.ident (mem_append_right _ hstride)) hbody .done

/-- The end of the parallel loop is an integer. -/
theorem GridBounds.typed {bound : RangeBound} {b : GridBound} (h : GridBounds ctx root bound b)
    (hdeclared : ∀ u ∈ b.uses, (Item.resource u.resource).Declared ctx Γ) :
    HasType Γ b.stop .i32 := by
  cases h with
  | field | const => exact .int _
  | loaded =>
    have htmps : (Item.resource .globalTmps).Declared ctx Γ := hdeclared _ mem_cons_self
    exact .word (htmps .globalTmps) (.lit rfl) rfl

/-- The number that tells the generators of invocations apart. -/
theorem randId_typed (hinvocation : ctx.stage = .compute →
      (.globalInvocationId, ⟨.data ⟨.u32, 3⟩, false⟩) ∈ Γ)
    (hinputs : ∀ member ∈ randInputs ctx.stage, (Item.input member).Declared ctx Γ) :
    HasType Γ (randId ctx.stage) .u32 := by
  cases hstage : ctx.stage with
  | compute => exact .select (.ident (hinvocation hstage)) rfl
  | vertex =>
    rw [hstage] at hinputs
    have hindex : (Item.input .vertexIndex).Declared ctx Γ := hinputs _ mem_cons_self
    exact hindex
  | fragment =>
    rw [hstage] at hinputs
    have hcoord : (Item.input .fragCoord).Declared ctx Γ := hinputs _ mem_cons_self
    have hpart {sel : Selector} (hsel : Ty.member? (.data ⟨.f32, 4⟩) sel = some .f32) :
        HasType Γ (.convert ⟨.u32, 1⟩ (.select (.input .fragCoord) sel)) .u32 :=
      HasType.convert (.select hcoord hsel) (.inl rfl)
    exact (hpart rfl).arith ((hpart rfl).arith (.uint _) rfl) rfl

/-- **Seeding is well typed** where what it reads is declared. -/
theorem seedLines_typed (hstate : (.randState, ⟨.generator, true⟩) ∈ Γ)
    (htmps : (Item.resource .globalTmps).Declared ctx Γ) (hid : HasType Γ (randId ctx.stage) .u32) :
    (Code.ofLines (seedLines ctx)).Typed Γ [(.randId, ⟨.u32, false⟩)] := by
  have hmore : Γ ⊆ (.randId, ⟨.u32, false⟩) :: Γ := subset_cons_self _ _
  have hword {sel : Selector} (hsel : Ty.generator.member? sel = some .u32) :
      Assignable ((.randId, ⟨.u32, false⟩) :: Γ) (.select (.ident .randState) sel) .u32 :=
    ⟨.select (.ident (hmore hstate)) hsel, _, _, rfl, hmore hstate⟩
  have hseed : HasType ((.randId, ⟨.u32, false⟩) :: Γ)
      (.convert ⟨.u32, 1⟩ (.word .globalTmps (.lit (.abstract ctx.config.randSeedWord)))) .u32 :=
    HasType.convert (a := ⟨.i32, 1⟩) (.word (hmore (htmps .globalTmps)) (.lit rfl) rfl) (.inl rfl)
  have hscaled : HasType ((.randId, ⟨.u32, false⟩) :: Γ)
      (.binary .mul (.lit (.uint 123456789)) (.ident .randId)) .u32 :=
    (HasType.uint _).arith (.ident mem_cons_self) rfl
  exact .line (.letBind hid) (.line (.assign (hword rfl) (hscaled.arith (.uint _) rfl))
    (.line (.assign (hword rfl) (.uint _)) (.line (.assign (hword rfl) (.uint _))
      (.line (.assign (hword rfl) ((HasType.uint _).arith hseed rfl)) .done))))

/-! ## What a draft has collected -/

/-- Random numbers take in what seeds them. -/
theorem Lowers.randInputs (h : Lowers ctx values s l) (hrandom : l.random = true) :
    l.inputs = randInputs ctx.stage := by
  cases h with
  | rand => rfl
  | sample _ _ hl | sampleLod _ _ _ hl =>
    obtain ⟨use, e, type, -, -, rfl⟩ := sampleTexture_eq_ok hl
    cases hrandom
  | _ => cases hrandom

/-- Whoever draws random numbers has asked for the inputs that the seed is made of. -/
theorem Walks.randInputs {inner : Outline} {code : Code} (h : Walks ctx st inner st' code)
    (hst : st.random = true → ∀ member ∈ randInputs ctx.stage, st.Has (.input member)) :
    st'.random = true → ∀ member ∈ randInputs ctx.stage, st'.Has (.input member) := by
  refine h.keeps (P := fun st => st.random = true → ∀ member ∈ Codegen.randInputs ctx.stage,
    st.Has (.input member)) (fun _ hst hl happly hrandom member hm => apply_has happly ?_) hst
  rw [(apply_values happly).2, Bool.or_eq_true] at hrandom
  rcases hrandom with hrandom | hrandom
  · exact .inl (hst hrandom member hm)
  · rw [← hl.randInputs hrandom] at hm
    exact .inr hm

/-- A vertex stage has a position. -/
theorem draft_position (ho : o ∈ ctx.module.groups) (hstage : ctx.stage = o.kind.stage)
    (hvertex : ctx.stage = .vertex) (h : draft ctx st o = .ok d) :
    d.state.Has (.output .position) := by
  have hkind : o.kind = .vertexFor := by
    rw [hstage] at hvertex
    cases hk : o.kind with
    | vertexFor => rfl
    | serial | rangeFor | fragmentFor =>
      rw [hk] at hvertex
      cases hvertex
  obtain ⟨root, hstmts⟩ := Module.exists_root_of_mem_groups ho (by simp [hkind])
  obtain ⟨s, body, outputs, st', code, -, hroot, hwalk, rfl⟩ :=
    draft_root (.inl hkind) hstmts h
  rcases hroot with ⟨-, -, houtputs⟩ | ⟨hfragment, -⟩
  · have hstart : ({ st with outputs } : State).Has (.output .position) :=
      (addMember_hasMember houtputs).1
    exact (walks_of_walk hwalk).has hstart
  · cases hvertex.symm.trans hfragment

/-- The end of a parallel loop is what its bound says, and the resources for it are collected. -/
theorem draft_stop {stop : Expr} (hkind : o.kind = .rangeFor) (hstmts : o.stmts = [root])
    (h : draft ctx st o = .ok d) (hprologue : d.prologue = gridPrologue ctx.config stop) :
    ∃ bound serial body b, ctx.module.kind? root = some (.rangeFor bound serial body) ∧
      GridBounds ctx root bound b ∧ stop = b.stop ∧
      ∀ u ∈ b.uses, d.state.Has (.resource u.resource) := by
  obtain ⟨s, bound, serial, body, b, st₀, n, st', code, hs, hrange, hbound, huses, -, hwalks,
    rfl⟩ := draft_rangeFor hkind hstmts h
  have hstop : b.stop = stop := by simpa [gridPrologue] using hprologue
  refine ⟨bound, serial, body, b, ?_, hbound, hstop.symm, fun u hu => ?_⟩
  · rw [Module.kind?, hs, Option.map_some, hrange]
  have hstart : st₀.Has (.resource u.resource) :=
    ((uses_resources huses).1 u.resource).2 (.inr ⟨u, hu, rfl⟩)
  exact hwalks.has hstart

/-! ## Whole shaders -/

namespace Drafted

variable {grid : Option StmtId} {roots : List Stmt} {inner : Outline} {around : List StmtId}
  {start : State} {code : Code}

theorem declared_gridLoop {item : Item} (h : item.Declared ctx Γ) (grid : Option StmtId) :
    item.Declared { ctx with gridLoop := grid } Γ := by
  cases item with
  | resource r => exact fun hd => h ((Declares.gridLoop grid).1 hd)
  | input member => exact h
  | output member => exact h

/-- The code of the walk is well typed where what was collected is declared, and the loop index. -/
theorem code_typed (h : Drafted ctx o d grid roots inner around start code)
    (hadmitted : ∀ (i : Nat) (s : Stmt), ctx.module.stmts[i]? = some s →
      ctx.module.Admits s.block s.kind)
    (hposition : ctx.stage = .vertex → d.state.Has (.output .position))
    (hdeclared : ∀ item : Item, d.state.Has item → item.Declared ctx Γ)
    (hindex : ∀ x, grid = some x → (.gridIndex, ⟨.i32, true⟩) ∈ Γ)
    (htexture : ∀ s ∈ inner.stmts, s.kind.isTexture = false) : ∃ Δ, code.Typed Γ Δ := by
  refine Walks.typed ?_ h.walks h.placed ?_ ?_ ?_ ?_ htexture
  · exact hadmitted
  · rw [h.values]
    exact tabled_nil fun x hx hplays => (h.outside x hx).2 hplays
  · rw [h.values]
    refine ⟨fun hx => absurd hx not_mem_nil, fun hx hplays hgrid => ?_, fun hx => hindex _ hx⟩
    exact absurd ((h.outside _ hx).2 hplays) hgrid
  · exact fun hstage => hdeclared (.output .position) (hposition hstage)
  · exact fun item hi => declared_gridLoop (hdeclared item hi) grid

/-- Seeding is well typed behind the declarations of the shader, if it is there. -/
theorem seeding_typed (h : Drafted ctx o d grid roots inner around start code)
    (hdeclared : ∀ item : Item, d.state.Has item → item.Declared ctx Γ)
    (henv : (assemble ctx o.kind d).shader.env ⊆ Γ) :
    ∃ Δ, (Code.ofLines (if d.state.random then seedLines ctx else [])).Typed Γ Δ := by
  split
  · rename_i hrandom
    have hinputs := h.walks.randInputs (fun hstart => absurd (h.random.symm.trans hstart) nofun)
      hrandom
    refine ⟨_, seedLines_typed (henv (Shader.randState_mem_env hrandom))
      (hdeclared (.resource .globalTmps) (h.sound_end.seeded hrandom).1) (randId_typed ?_ ?_)⟩
    · exact fun hstage => henv (Shader.invocation_mem_env hstage).1
    · exact fun member hm => hdeclared (.input member) (hinputs member hm)
  · exact ⟨[], .done⟩

end Drafted

/-- The values that a draft was made from are plain. -/
theorem draft_isPlain (hinv : ctx.module.Inv) (ho : o ∈ ctx.module.groups)
    (hstage : ctx.stage = o.kind.stage) (hgrid : ctx.gridLoop = none)
    (h : draft ctx { bindings } o = .ok d) : Values.IsPlain d.state.values := by
  obtain ⟨grid, roots, inner, around, start, code, hd⟩ := drafted_of_draft hinv ho hstage hgrid h
  refine hd.walks.isPlain ?_
  rw [hd.values]
  exact fun _ hp => absurd hp not_mem_nil

/-- **Drafts without textures make well-typed shaders.** -/
theorem wellTyped_of_draft (hinv : ctx.module.Inv)
    (hadmitted : ∀ (i : Nat) (s : Stmt), ctx.module.stmts[i]? = some s →
      ctx.module.Admits s.block s.kind)
    (ho : o ∈ ctx.module.groups) (hstage : ctx.stage = o.kind.stage) (hgrid : ctx.gridLoop = none)
    (h : draft ctx { bindings } o = .ok d)
    (htexture : ∀ s ∈ (ctx.module.outlineOf ctx.module.outline o.stmts).stmts,
      s.kind.isTexture = false) :
    (assemble ctx o.kind d).shader.WellTyped := by
  obtain ⟨grid, roots, inner, around, start, code, hd⟩ := drafted_of_draft hinv ho hstage hgrid h
  obtain ⟨xs, fixed, owned, htidy⟩ := hd.tidy hadmitted
  have hdeclares : d.state.Declares ctx :=
    draft_declares (Module.exists_root_of_mem_groups ho) h fun _ hg => absurd hg not_mem_nil
  have hdeclared {Γ : Env} (hΓ : (assemble ctx o.kind d).shader.env ⊆ Γ) (item : Item)
      (hi : d.state.Has item) : item.Declared ctx Γ :=
    (declared_of_has hdeclares hd.sound_end hi).mono hΓ
  have hcode {Γ : Env} (hΓ : (assemble ctx o.kind d).shader.env ⊆ Γ)
      (hindex : ∀ x, grid = some x → (.gridIndex, ⟨.i32, true⟩) ∈ Γ) : ∃ Δ, code.Typed Γ Δ :=
    hd.code_typed hadmitted (fun hvertex => draft_position ho hstage hvertex h) (hdeclared hΓ)
      hindex fun s hs => htexture s (by rw [hd.stmts]; exact mem_append_right _ hs)
  have hseeding {Γ : Env} (hΓ : (assemble ctx o.kind d).shader.env ⊆ Γ) :=
    hd.seeding_typed (hdeclared hΓ) hΓ
  have hshader : (assemble ctx o.kind d).shader.prologue ++ (assemble ctx o.kind d).shader.body =
      Code.ofLines (d.prologue ++ if d.state.random then seedLines ctx else []) ++ d.body := rfl
  refine ⟨htidy.wellScoped, ?_⟩
  rw [hshader, ofLines_append]
  cases hd.frame with
  | bare hprologue hbody =>
    rw [hprologue, hbody]
    obtain ⟨Δ, hseeding⟩ := hseeding (List.Subset.refl _)
    obtain ⟨Δ', hcode⟩ := hcode (subset_append_right Δ _) (fun x hx => by cases hx)
    exact ⟨_, hseeding.append hcode⟩
  | @grid root stop hcompute hprologue hbody =>
    rw [hprologue, hbody]
    obtain ⟨hkind, hstmts⟩ := (hd.isGrid root).1 rfl
    obtain ⟨bound, -, -, b, -, hbound, rfl, huses⟩ := draft_stop hkind hstmts h hprologue
    have hstop := hbound.typed fun u hu =>
      hdeclared (List.Subset.refl _) (.resource u.resource) (huses u hu)
    obtain ⟨hinvocation, hgroups⟩ :=
      Shader.invocation_mem_env (s := (assemble ctx o.kind d).shader) hcompute
    obtain ⟨Δ, hseeding⟩ := hseeding (subset_append_right gridNames _)
    have hlead := (gridPrologue_typed ctx.config hgroups hstop).append hseeding
    -- The loop stands behind the names of the prologue and of the seed, its body behind one more.
    have hmore : (assemble ctx o.kind d).shader.env ⊆
        (Δ ++ gridNames) ++ (assemble ctx o.kind d).shader.env := subset_append_right _ _
    obtain ⟨Δ', hcode⟩ := hcode
      (List.Subset.trans hmore (subset_append_right gridLoop.env _))
      (fun _ _ => mem_cons_self)
    refine ⟨_, hlead.append (gridLoop_typed (hmore hinvocation) ?_ ?_ hcode)⟩
    · simp [gridNames]
    · simp [gridNames]

/-- **Shapes fit in every offload**, since a walk keeps its table plain. -/
theorem isShape_of_generate {m : Module} {signature : Signature} {config : Config}
    {previous : Option Task} {e : CodegenError} (hinv : m.Inv) (ho : o ∈ m.groups)
    (h : generate m o signature config previous = .error (.error e)) : e.isShape = false := by
  obtain ⟨bindings, hdraft⟩ := draft_of_generate_eq_error h
  cases draftFails_of_draft hinv ho rfl hdraft with
  | walk hstarts hwalk =>
    obtain ⟨st', t, hreach, hfails⟩ := failsAt_of_walk hwalk
    refine hfails.grounds_error.2.2 (hreach.keeps (P := fun st => Values.IsPlain st.values)
      (fun _ hst hl happly => hst.apply hl happly) ?_)
    rw [hstarts.values_eq]
    exact fun _ hp => absurd hp not_mem_nil
  | bound _ _ _ hbound => cases boundFails_of_gridBound hbound <;> rfl
  | slots _ _ _ _ _ _ he => cases he
  | workgroups hn =>
    obtain ⟨_, he⟩ := fault_of_workgroups hn
    cases he
  | position _ _ _ hmember =>
    obtain ⟨_, _, he⟩ := addMember_eq_error hmember
    cases he
    rfl

end Codegen

/-- **Shapes fit in every kernel**: compiling does not end with an error about them. -/
theorem Module.Inv.isShape_of_compile {m : Module} {signature : Signature} {config : Config}
    {e : CodegenError} (hinv : m.Inv) (h : compile m signature config = .error (.error e)) :
    e.isShape = false := by
  rcases compile_eq_error h with h | ⟨-, o, ho, previous, -, h⟩
  · obtain ⟨before, o, after, i, x, -, -, -, he⟩ := hinv.partition_eq_error.1 h
    cases he
    rfl
  · exact Codegen.isShape_of_generate hinv ho h

namespace Session

open Codegen

variable {actions : List Action} {s : Session} {m : Module}

/-- **Typed emission.**  The shader of an offload without textures is well typed, and the values it
was made from are plain: of kind `i32` or `f32`, with one component or four.  Compiling never
reports a component count that no type has, or operands whose shapes do not go together. -/
theorem generate_wellTyped (hrun : Session.run {} actions = .ok s)
    (hfinish : s.builder.finish = .ok m) :
    (∀ o ∈ m.groups, ∀ signature config previous task,
      generate m o signature config previous = .ok task →
      ∃ bindings d, draft (contextOf m o signature config previous) { bindings } o = .ok d ∧
        task = (assemble (contextOf m o signature config previous) o.kind d).task o.kind signature ∧
        Values.IsPlain d.state.values ∧
        ((∀ x t, m.NestedIn o.stmts x → m.stmts[x]? = some t → t.kind.isTexture = false) →
          (assemble (contextOf m o signature config previous) o.kind d).shader.WellTyped)) ∧
    ∀ signature config id,
      (∀ n, compile m signature config ≠
        .error (.error (.unsupportedType id (.badComponentCount n)))) ∧
      ∀ op a b, compile m signature config ≠
        .error (.error (.typeMismatch id (.operandShapes op a b))) := by
  obtain ⟨hinv, hadmitted⟩ := inv_of_finish hrun hfinish
  refine ⟨fun o ho signature config previous task h => ?_, fun signature config id =>
    ⟨fun n h => ?_, fun op a b h => ?_⟩⟩
  · obtain ⟨p, hp, h⟩ := bind_eq_ok.1 h
    cases h
    obtain ⟨bindings, d, hd, rfl⟩ := program_eq_ok hp
    refine ⟨bindings, d, hd, rfl, draft_isPlain hinv ho rfl rfl hd, fun htexture => ?_⟩
    refine wellTyped_of_draft hinv hadmitted ho rfl rfl hd fun t ht => ?_
    exact htexture t.id t (hinv.nestedIn_of_mem_outlineOf ho ht)
      ((hinv.placed_offload ho).found_of_mem ht)
  · cases hinv.isShape_of_compile h
  · cases hinv.isShape_of_compile h

/-- A loop that adds random numbers to floats, and a fragment stage that scales a vector. -/
def dithering : List Action :=
  [.create (.const (.i32 3)), .create (.rangeFor (.value 0) false), .openGuard .rangeFor 1,
    .create (.loopIndex 1), .create (.globalPtr ⟨7, [3], .f32, 1, 0, 0, true⟩ [2] 0),
    .create (.rand .f32), .create (.atomic .add 3 4), .closeGuard 0, .create .fragmentFor,
    .openGuard .fragmentFor 6, .create (.builtinInput .fragCoord), .create (.binary .mul 7 0),
    .create (.extract 8 1), .create (.binary .cmpLt 9 0), .create (.colorOutput 0 [9, 10, 0, 9]),
    .closeGuard 1]

/-- Both shaders are well typed. -/
theorem generate_wellTyped_dithering :
    ∃ s m, Session.run {} dithering = .ok s ∧ s.builder.finish = .ok m ∧
      m.groups = [⟨.rangeFor, [1]⟩, ⟨.fragmentFor, [6]⟩] ∧
      (∀ o ∈ m.groups, ∃ task bindings d, generate m o {} {} none = .ok task ∧
        draft (contextOf m o {} {} none) { bindings } o = .ok d ∧
        task = (assemble (contextOf m o {} {} none) o.kind d).task o.kind {} ∧
        Values.IsPlain d.state.values ∧
        (assemble (contextOf m o {} {} none) o.kind d).shader.WellTyped) ∧
      ∀ n, compile m {} {} ≠ .error (.error (.unsupportedType 8 (.badComponentCount n))) := by
  have hrun : ∃ s m loop fragment, Session.run {} dithering = .ok s ∧ s.builder.finish = .ok m ∧
      m.groups = [⟨.rangeFor, [1]⟩, ⟨.fragmentFor, [6]⟩] ∧
      generate m ⟨.rangeFor, [1]⟩ {} {} none = .ok loop ∧
      generate m ⟨.fragmentFor, [6]⟩ {} {} none = .ok fragment ∧
      m.stmts.toList.all (fun t => !t.kind.isTexture) = true :=
    ⟨_, _, _, _, rfl, rfl, rfl, rfl, rfl, rfl⟩
  obtain ⟨s, m, loop, fragment, hrun, hfinish, hgroups, hloop, hfragment, hplain⟩ := hrun
  obtain ⟨hall, hshapes⟩ := generate_wellTyped hrun hfinish
  have htexture (x : StmtId) (t : Stmt) (ht : m.stmts[x]? = some t) : t.kind.isTexture = false := by
    simpa using all_eq_true.1 hplain t (Array.mem_toList_iff.2 (Array.mem_of_getElem? ht))
  refine ⟨s, m, hrun, hfinish, hgroups, fun o ho => ?_, (hshapes {} {} 8).1⟩
  obtain ⟨task, htask⟩ : ∃ task, generate m o {} {} none = .ok task := by
    rw [hgroups] at ho
    rcases mem_pair.1 ho with rfl | rfl
    · exact ⟨loop, hloop⟩
    · exact ⟨fragment, hfragment⟩
  obtain ⟨bindings, d, hd, hmade, hvalues, htyped⟩ := hall o ho {} {} none task htask
  exact ⟨task, bindings, d, htask, hd, hmade, hvalues, htyped fun x t _ ht => htexture x t ht⟩

end Session

end WgslKernel
