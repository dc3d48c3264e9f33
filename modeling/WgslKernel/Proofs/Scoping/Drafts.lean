import WgslKernel.Proofs.Scoping.Assembly

/-!
# Drafts and their walks

The three ways to draft an offload differ in what they walk and what they put around the code.
`Drafted` says what they have in common, and `drafted_of_draft` finds it for any draft.
-/

namespace WgslKernel

open List

theorem Outline.Placed.enclosing {m : Module} {walked visible around : List StmtId} {o : Outline}
    (h : o.Placed m walked visible around) {s : Stmt} (hs : s ∈ o.stmts) {x : StmtId}
    (hx : x ∈ m.enclosing s.block) : x ∈ around ∨ x ∈ o.ids := by
  induction h with
  | nil => simp [stmts] at hs
  | cons _ _ _ hinside _ _ _ ihFirst ihSecond ihRest =>
    simp only [stmts, mem_cons, mem_append] at hs
    rw [ids_cons]
    rcases hs with rfl | hs | hs | hs
    · exact .inl (hinside ▸ hx)
    · rcases ihFirst hs with h | h
      · rcases mem_cons.1 h with rfl | h <;> simp [*]
      · simp [h]
    · rcases ihSecond hs with h | h
      · rcases mem_cons.1 h with rfl | h <;> simp [*]
      · simp [h]
    · rcases ihRest hs with h | h <;> simp [h]

/-- The variable that counts a range-for: the loop of the offload is spread over the invocations,
and all others have a counter. -/
def Offload.inductionVariable? (o : Offload) (s : Stmt) : Option Ident :=
  match s.kind with
  | .rangeFor .. =>
    some (if o.kind = .rangeFor ∧ o.stmts = [s.id] then .gridIndex else .counter s.id)
  | _ => none

namespace Codegen

variable {m : Module} {ctx : Context} {o : Offload} {d : Draft} {bindings : BindingMap}

/-! ## What drafts have in common -/

/-- The code of a walk within a draft: alone, or in the parallel loop. -/
inductive Framed (ctx : Context) (d : Draft) (code : Code) : Option StmtId → Prop where
  | bare (hprologue : d.prologue = []) (hbody : d.body = code) : Framed ctx d code none
  | grid {root : StmtId} {stop : Expr} (hstage : ctx.stage = .compute)
    (hprologue : d.prologue = gridPrologue ctx.config stop)
    (hbody : d.body = .countLoop gridLoop code .done)
    (hstop : ∀ n ∈ stop.names, d.state.Offers n) : Framed ctx d code (some root)

/-- How an offload was drafted: `root` is its statement, if it has one, `inner` what was walked of
it, and `grid` the loop spread over the invocations. -/
structure Drafted (ctx : Context) (o : Offload) (d : Draft) (grid : Option StmtId)
    (root : List Stmt) (inner : Outline) (around : List StmtId) (start : State) (code : Code) :
    Prop where
  walks : Walks { ctx with gridLoop := grid } start inner d.state code
  placed : inner.Placed ctx.module [] [] around
  owned : inner.Owned
  stmts : (ctx.module.outlineOf ctx.module.outline o.stmts).stmts = root ++ inner.stmts
  /-- The statement that an offload is about owns what is walked. -/
  owns : ∀ s ∈ root, ctx.module.stmts[s.id]? = some s ∧ s.kind.childBlocks ≠ [] ∧ s.id ∉ inner.ids
  header : root.filterMap o.inductionVariable? = if grid.isSome then [.gridIndex] else []
  isGrid : ∀ x, grid = some x ↔ o.kind = .rangeFor ∧ o.stmts = [x]
  isRoot : ∀ x, grid = some x → x ∈ root.map Stmt.id
  outside : ∀ x ∈ around, x ∈ root.map Stmt.id ∧ (ctx.module.Plays x .rangeFor → grid = some x)
  values : start.values = []
  random : start.random = false
  sound : start.Sound ctx
  vertex : ctx.stage = .vertex → start.Offers (.ident .stageOutput)
  frame : Framed ctx d code grid

/-- Nothing is collected before a walk. -/
theorem sound_start : ({ bindings } : State).Sound ctx where
  nodup := nodup_nil
  numbered _ hr := absurd hr not_mem_nil
  compute _ := ⟨fun h => h rfl, fun h => h rfl⟩
  seeded h := by cases h

theorem drafted_serial (hinv : ctx.module.Inv) (ho : o ∈ ctx.module.groups)
    (hkind : o.kind = .serial) (hstage : ctx.stage = .compute) (hgrid : ctx.gridLoop = none)
    (h : draft ctx { bindings } o = .ok d) :
    ∃ grid root walked around start code,
      Drafted ctx o d grid root walked around start code := by
  obtain ⟨st', code, hwalks, rfl⟩ := draft_serial hkind h
  exact ⟨none, [], _, [], _, code,
    { walks := by rwa [← hgrid]
      placed := hinv.placed_offload ho
      owned := Module.owned_outlineOf (Module.owned_outline _) _
      stmts := rfl
      owns := fun _ hs => absurd hs not_mem_nil
      header := rfl
      isGrid := fun x => by simp [hkind]
      isRoot := fun x hx => by cases hx
      outside := fun _ hx => absurd hx not_mem_nil
      values := rfl
      random := rfl
      sound := sound_start
      vertex := fun h => by rw [hstage] at h; cases h
      frame := .bare rfl rfl }⟩

/-! ## Offloads about one statement -/

/-- An offload that is not serial is about a statement of the top level. -/
theorem standalone_eq (hinv : m.Inv) (ho : o ∈ m.groups) (hkind : o.kind ≠ .serial) :
    ∃ s : Stmt, m.stmts[s.id]? = some s ∧ o.stmts = [s.id] ∧ s.block = rootBlock ∧
      OffloadKind.standalone? s.kind = some o.kind := by
  rcases Module.standalone_of_mem_groups ho with hserial | ⟨i, kind, hstmts, hi, hstandalone⟩
  · exact absurd hserial hkind
  · have hroot : i ∈ m.blockStmts rootBlock :=
      (Module.stmts_sublist_of_mem_groups ho).subset (by simp [hstmts])
    obtain ⟨s, hs, hblock⟩ := hinv.of_mem_blockStmts hroot
    obtain rfl := hinv.id_eq hs
    rw [Module.kind?, hs] at hi
    cases hi
    exact ⟨s, hs, hstmts, hblock, hstandalone⟩

theorem stmts_standalone {s : Stmt} {b : BlockId} (hs : m.stmts[s.id]? = some s)
    (hb : s.kind.childBlocks = [b]) :
    (m.outlineOf m.outline [s.id]).stmts = [s] ++ (m.outline b).stmts := by
  rw [Module.outlineOf_standalone hs hb]
  simp [Outline.stmts]

/-- What is walked of an offload about one statement. -/
theorem placed_standalone (hinv : m.Inv) (ho : o ∈ m.groups) {s : Stmt} {b : BlockId}
    (hs : m.stmts[s.id]? = some s) (hstmts : o.stmts = [s.id]) (hroot : s.block = rootBlock)
    (hb : s.kind.childBlocks = [b]) :
    (m.outline b).Placed m [] [] [s.id] ∧ s.id ∉ (m.outline b).ids := by
  refine ⟨hinv.placed_body hs hroot (by simp [hb]), ?_⟩
  have hnodup := (hinv.placed_offload ho).nodup
  rw [Outline.ids, hstmts, stmts_standalone hs hb, map_append] at hnodup
  exact (nodup_cons.1 hnodup).1

theorem drafted_graphics (hinv : ctx.module.Inv) (ho : o ∈ ctx.module.groups)
    (hkind : o.kind = .vertexFor ∨ o.kind = .fragmentFor) (hgrid : ctx.gridLoop = none)
    (h : draft ctx { bindings } o = .ok d) :
    ∃ grid root inner around start code,
      Drafted ctx o d grid root inner around start code := by
  obtain ⟨s, hs, hstmts, hroot, hstandalone⟩ :=
    standalone_eq hinv ho (by rcases hkind with h | h <;> simp [h])
  obtain ⟨s', body, outputs, st', code, hs', hb, hstage, hvertex, hwalks, rfl⟩ :=
    draft_graphics hkind hstmts h
  rw [hs] at hs'
  cases hs'
  obtain ⟨hplaced, hself⟩ := placed_standalone hinv ho hs hstmts hroot hb
  have hloop : ∀ n serial b, s.kind ≠ .rangeFor n serial b := by
    intro n serial b hk
    rw [hk] at hstandalone
    cases serial with
    | true => cases hstandalone
    | false =>
      rw [← Option.some.inj hstandalone] at hkind
      rcases hkind with h | h <;> cases h
  exact ⟨none, [s], _, [s.id], { bindings, outputs }, code,
    { walks := by rwa [← hgrid]
      placed := hplaced
      owned := Module.owned_outline _ _
      stmts := by rw [hstmts, stmts_standalone hs hb]
      owns := fun t ht => by
        rw [mem_singleton.1 ht]
        exact ⟨hs, by simp [hb], hself⟩
      header := by
        have hnone : o.inductionVariable? s = none := by
          unfold Offload.inductionVariable?
          split
          · exact absurd ‹_› (hloop _ _ _)
          · rfl
        simp [hnone]
      isGrid := fun x => by rcases hkind with h | h <;> simp [h]
      isRoot := fun x hx => by cases hx
      outside := fun x hx => by
        rw [mem_singleton.1 hx]
        refine ⟨mem_cons_self, fun hplays => absurd hplays (not_plays_rangeFor hs hloop)⟩
      values := rfl
      random := rfl
      sound :=
        { nodup := nodup_nil
          numbered := fun _ hr => absurd hr not_mem_nil
          compute := fun h => absurd h hstage
          seeded := fun h => by cases h }
      vertex := hvertex
      frame := .bare rfl rfl }⟩

theorem GridBounds.names {root : StmtId} {bound : RangeBound} {b : GridBound}
    (h : GridBounds ctx root bound b) :
    (∀ n ∈ b.stop.names, ∃ u ∈ b.uses, n = .ident (.resource u.resource)) ∧
      ∀ u ∈ b.uses, u.resource.IsNumbered := by
  cases h with
  | field | const => simp
  | loaded =>
    refine ⟨fun n hn => ?_, forall_mem_singleton.2 rfl⟩
    rw [Expr.names_word, Expr.names, mem_singleton] at hn
    exact ⟨_, mem_cons_self, hn⟩

theorem drafted_rangeFor (hinv : ctx.module.Inv) (ho : o ∈ ctx.module.groups)
    (hkind : o.kind = .rangeFor) (hstage : ctx.stage = .compute)
    (h : draft ctx { bindings } o = .ok d) :
    ∃ grid root inner around start code,
      Drafted ctx o d grid root inner around start code := by
  obtain ⟨s, hs, hstmts, hroot, -⟩ := standalone_eq hinv ho (by simp [hkind])
  obtain ⟨s', bound, serial, body, b, st₀, n, st', code, hs', hk, hbound, huses, -, hwalks, rfl⟩ :=
    draft_rangeFor hkind hstmts h
  rw [hs] at hs'
  cases hs'
  have hb : s.kind.childBlocks = [body] := by rw [hk]; rfl
  obtain ⟨hplaced, hself⟩ := placed_standalone hinv ho hs hstmts hroot hb
  obtain ⟨hstop, hnumbered⟩ := hbound.names
  obtain ⟨hresources, hnodup⟩ := uses_resources huses
  obtain ⟨bindings', globals, rfl⟩ := uses_eq huses
  exact ⟨some s.id, [s], _, [s.id], _, code,
    { walks := hwalks
      placed := hplaced
      owned := Module.owned_outline _ _
      stmts := by rw [hstmts, stmts_standalone hs hb]
      owns := fun t ht => by
        rw [mem_singleton.1 ht]
        exact ⟨hs, by simp [hb], hself⟩
      header := by simp [Offload.inductionVariable?, hk, hkind, hstmts]
      isGrid := fun x => by simp [hkind, hstmts]
      isRoot := fun x hx => by
        cases hx
        exact mem_cons_self
      outside := fun x hx => by
        rw [mem_singleton.1 hx]
        exact ⟨mem_cons_self, fun _ => rfl⟩
      values := rfl
      random := rfl
      sound :=
        { nodup := hnodup nodup_nil
          numbered := fun r hr => by
            rcases (hresources r).1 hr with hr | ⟨u, hu, rfl⟩
            · exact absurd hr not_mem_nil
            · exact hnumbered u hu
          compute := fun _ => ⟨fun h => h rfl, fun h => h rfl⟩
          seeded := nofun }
      vertex := fun h => by rw [hstage] at h; cases h
      frame := .grid hstage rfl rfl fun n hn => by
        obtain ⟨u, hu, rfl⟩ := hstop n hn
        exact hwalks.offers (n := .ident (.resource u.resource))
          ((hresources u.resource).2 (.inr ⟨u, hu, rfl⟩)) }⟩

/-- **Every draft is one walk with a frame around it.** -/
theorem drafted_of_draft (hinv : ctx.module.Inv) (ho : o ∈ ctx.module.groups)
    (hstage : ctx.stage = o.kind.stage) (hgrid : ctx.gridLoop = none)
    (h : draft ctx { bindings } o = .ok d) :
    ∃ grid root inner around start code,
      Drafted ctx o d grid root inner around start code := by
  cases hkind : o.kind with
  | serial => exact drafted_serial hinv ho hkind (by rw [hstage, hkind]; rfl) hgrid h
  | rangeFor => exact drafted_rangeFor hinv ho hkind (by rw [hstage, hkind]; rfl) h
  | vertexFor => exact drafted_graphics hinv ho (.inl hkind) hgrid h
  | fragmentFor => exact drafted_graphics hinv ho (.inr hkind) hgrid h

namespace Drafted

variable {grid : Option StmtId} {root : List Stmt} {inner : Outline} {around : List StmtId}
  {start : State} {code : Code}

/-! ## What follows for a draft -/

/-- Inside an offload, a loop is counted by the name that its index stands for. -/
theorem inductionVariable_eq (h : Drafted ctx o d grid root inner around start code) {s : Stmt}
    {bound : RangeBound} {serial : Bool} {body : BlockId}
    (hkind : s.kind = .rangeFor bound serial body) :
    o.inductionVariable? s = some (indexName { ctx with gridLoop := grid } s.id) := by
  rw [Offload.inductionVariable?, hkind, indexName]
  exact congrArg some (if_congr (h.isGrid s.id).symm rfl rfl)

/-- What was collected is sound. -/
theorem sound_end (h : Drafted ctx o d grid root inner around start code) : d.state.Sound ctx := by
  have hstart : start.Sound { ctx with gridLoop := grid } :=
    ⟨h.sound.nodup, h.sound.numbered, h.sound.compute, h.sound.seeded⟩
  have hend := h.walks.sound hstart
  exact ⟨hend.nodup, hend.numbered, hend.compute, hend.seeded⟩

/-- Random numbers are set up if any are drawn. -/
theorem random_eq (h : Drafted ctx o d grid root inner around start code) :
    d.state.random = (ctx.module.outlineOf ctx.module.outline o.stmts).stmts.any
      fun s => s.kind.isRandom := by
  have hroot : root.any (fun s => s.kind.isRandom) = false := by
    rw [any_eq_false]
    intro s hs hrandom
    refine (h.owns s hs).2.1 ?_
    cases hk : s.kind with
    | rand => rfl
    | _ => rw [hk] at hrandom; cases hrandom
  rw [h.walks.random_eq h.owned, h.random, h.stmts, any_append, hroot]

/-- **The counting loops of a shader are those of the range-fors of its offload.** -/
theorem loops (h : Drafted ctx o d grid root inner around start code) :
    d.body.headers.map LoopHeader.counter =
      (ctx.module.outlineOf ctx.module.outline o.stmts).stmts.filterMap o.inductionVariable? := by
  have hinner : inner.stmts.filterMap o.inductionVariable? = inner.stmts.filterMap counter? := by
    refine filterMap_congr fun s hs => ?_
    -- The parallel loop is not inside itself.
    have hne : grid ≠ some s.id := by
      intro hgrid
      obtain ⟨r, hr, hid⟩ := mem_map.1 (h.isRoot s.id hgrid)
      exact (h.owns r hr).2.2 (hid ▸ mem_map_of_mem hs)
    cases hk : s.kind with
    | rangeFor bound serial body =>
      rw [h.inductionVariable_eq hk, indexName, if_neg hne, counter?, hk]
    | _ => rw [Offload.inductionVariable?, counter?, hk]
  have hcode := h.walks.headers_eq h.owned
  rw [h.stmts, filterMap_append, h.header, hinner, ← hcode]
  cases h.frame with
  | bare _ hbody =>
    rw [hbody]
    rfl
  | grid _ _ hbody =>
    rw [hbody]
    simp [Code.headers, gridLoop]

variable
  (hadmitted : ∀ (i : Nat) (s : Stmt), ctx.module.stmts[i]? = some s →
    ctx.module.Admits s.block s.kind)

include hadmitted

/-- **The index of a loop stands for the variable of that loop**, which is around it. -/
theorem index (h : Drafted ctx o d grid root inner around start code) {s : Stmt} {loop : StmtId}
    (hs : s ∈ (ctx.module.outlineOf ctx.module.outline o.stmts).stmts)
    (hkind : s.kind = .loopIndex loop) :
    loop ∈ ctx.module.enclosing s.block ∧
      ∃ t ∈ (ctx.module.outlineOf ctx.module.outline o.stmts).stmts, t.id = loop ∧
        ∃ n, o.inductionVariable? t = some n ∧
          d.state.values.lookup s.id = some ⟨.ident n, .ofPrim .i32⟩ := by
  rw [h.stmts] at hs ⊢
  rcases mem_append.1 hs with hs | hs
  · exact absurd (by rw [hkind]; rfl) (h.owns s hs).2.1
  have hadmits := hadmitted _ _ (h.placed.found_of_mem hs)
  rw [hkind] at hadmits
  obtain ⟨hplays, hin⟩ := hadmits
  have hloop : ∃ t ∈ root ++ inner.stmts, t.id = loop ∧ ctx.module.stmts[t.id]? = some t := by
    rcases h.placed.enclosing hs hin with hloop | hloop
    · obtain ⟨t, ht, hid⟩ := mem_map.1 (h.outside loop hloop).1
      exact ⟨t, mem_append_left _ ht, hid, (h.owns t ht).1⟩
    · obtain ⟨t, ht, hid⟩ := mem_map.1 hloop
      exact ⟨t, mem_append_right _ ht, hid, h.placed.found_of_mem ht⟩
  obtain ⟨t, ht, rfl, hfound⟩ := hloop
  obtain ⟨bound, serial, body, hk⟩ := hplays.rangeFor
  rw [Module.kind?, hfound] at hk
  refine ⟨hin, t, ht, rfl, _, h.inductionVariable_eq (Option.some.inj hk), ?_⟩
  exact h.walks.index h.owned h.placed.nodup hs hkind

/-- The code of the walk is scoped where the declarations are, and the variable of the loop. -/
theorem code_scoped (h : Drafted ctx o d grid root inner around start code) {scope : List Name}
    (houter : (assemble ctx o.kind d).shader.outer ⊆ scope)
    (hindex : ∀ x, grid = some x → .ident .gridIndex ∈ scope) : code.Scoped scope := by
  refine Walks.scoped ?_ h.walks h.placed ?_ ?_ h.vertex ?_
  · exact hadmitted
  · rw [h.values]
    exact tabled_nil fun x hx hplays => (h.outside x hx).2 hplays
  · rw [h.values]
    refine ⟨fun hx => absurd hx not_mem_nil, fun hx hplays hgrid => ?_, fun hx => hindex _ hx⟩
    exact absurd ((h.outside _ hx).2 hplays) hgrid
  · exact fun n hn => houter (mem_outer_of_offers h.sound_end hn)

/-- **Drafts are tidy.** -/
theorem tidy (h : Drafted ctx o d grid root inner around start code) :
    ∃ xs fixed owned, d.Tidy ctx o.kind xs fixed owned := by
  have howned := h.walks.ownedBy h.placed.nodup
  cases h.frame with
  | bare hprologue hbody =>
    refine ⟨inner.ids, [], code.declared, ?_⟩
    exact
      { sound := h.sound_end
        prologue := by
          rw [hprologue]
          trivial
        body := fun scope houter _ => by
          rw [hbody]
          exact h.code_scoped hadmitted houter (fun x hx => by cases hx)
        lead := by
          rw [hprologue]
          exact nil_sublist _
        declared := by
          rw [hbody]
          rfl
        fixed := nil_sublist _
        owned := howned }
  | grid hstage hprologue hbody hstop =>
    refine ⟨inner.ids, [.ident .gridIndex], code.declared, ?_⟩
    have hinvocation : .ident .globalInvocationId ∈ (assemble ctx o.kind d).shader.outer ∧
        .ident .numWorkgroups ∈ (assemble ctx o.kind d).shader.outer := by
      rw [Shader.outer_eq]
      obtain ⟨hid, hgroups⟩ := Shader.invocation_mem (s := (assemble ctx o.kind d).shader) hstage
      exact ⟨mem_append_right _ hid, mem_append_right _ hgroups⟩
    exact
      { sound := h.sound_end
        prologue := by
          rw [hprologue]
          exact ⟨by simpa [Line.names] using hinvocation.2,
            fun n hn => mem_append_right _ (mem_outer_of_offers h.sound_end (hstop n hn)),
            trivial⟩
        body := fun scope houter hbinds => by
          have hend : .ident .rangeEnd ∈ scope := hbinds (by rw [hprologue]; exact mem_cons_self)
          have hstride : .ident .totalInvocs ∈ scope :=
            hbinds (by rw [hprologue]; exact mem_cons_of_mem _ mem_cons_self)
          rw [hbody]
          refine ⟨?_, h.code_scoped hadmitted ?_ fun _ _ => mem_cons_self, trivial⟩
          · simp [LoopHeader.names, gridLoop, houter hinvocation.1, hend, hstride]
          · exact List.Subset.trans houter (subset_cons_self _ _)
        lead := by
          rw [hprologue]
          exact List.Sublist.refl _
        declared := by
          rw [hbody]
          simp [Code.declared, gridLoop]
        fixed := List.Sublist.refl _
        owned := howned }

end Drafted

end Codegen

end WgslKernel
