import WgslKernel.Codegen.Generate
import WgslKernel.Proofs.Codegen.Table
import WgslKernel.Proofs.Module.Offload

/-!
# What a program was made from

A program that was generated comes from one walk over its offload, from an empty table.  The three
ways to draft it are listed here, each with the walk it made and what it put around the code.
-/

namespace WgslKernel

/-- Statements that draw a random number. -/
def Kind.isRandom : Kind → Bool
  | rand _ => true
  | _ => false

namespace Codegen

variable {ctx : Context} {st : State} {o : Offload} {d : Draft} {root : StmtId}

/-- The context in which an offload is walked. -/
def contextOf (m : Module) (o : Offload) (signature : Signature) (config : Config)
    (previous : Option Task) : Context :=
  { module := m, config, signature, stage := o.kind.stage
    varyings := match previous with | some t => t.outputs | none => [] }

/-- A program is an assembled draft. -/
theorem program_eq_ok {m : Module} {signature : Signature} {config : Config}
    {previous : Option Task} {p : Program} (h : program m o signature config previous = .ok p) :
    ∃ bindings d, draft (contextOf m o signature config previous) { bindings } o = .ok d ∧
      p = assemble (contextOf m o signature config previous) o.kind d := by
  obtain ⟨bindings, -, h⟩ := bind_eq_ok.1 h
  obtain ⟨d, hd, h⟩ := bind_eq_ok.1 h
  cases h
  exact ⟨bindings, d, hd, rfl⟩

/-- How a serial offload is drafted. -/
theorem draft_serial (hkind : o.kind = .serial) (h : draft ctx st o = .ok d) :
    ∃ st' code, Walks ctx st (ctx.module.outlineOf ctx.module.outline o.stmts) st' code ∧
      d = { state := st', body := code } := by
  have hdraft : draft ctx st o = walkTop ctx st o.stmts >>= fun r =>
      .ok { state := r.1, body := r.2 } := by
    simp only [draft, hkind]
  rw [hdraft] at h
  obtain ⟨⟨st', code⟩, hwalk, h⟩ := bind_eq_ok.1 h
  cases h
  exact ⟨st', code, walks_of_walkTop hwalk, rfl⟩

/-- What ends a parallel loop: the size of a field, a constant, or a word of a temporary. -/
inductive GridBounds (ctx : Context) (root : StmtId) : RangeBound → GridBound → Prop where
  | field {f : Field} {n : Nat} (hn : fieldElements root f = .ok n) :
    GridBounds ctx root (.field f) { stop := .int n, hint := .fieldElements f.id n }
  | const {x : StmtId} {n : Int32} (hx : ctx.module.kind? x = some (.const (.i32 n))) :
    GridBounds ctx root (.value x)
      { stop := .int n.toInt.toNat, hint := .const n.toInt.toNat }
  | loaded {x ptr : StmtId} {offset word : Nat}
    (hload : ctx.module.kind? x = some (.temporaryLoad ptr))
    (hptr : ctx.module.kind? ptr = some (.temporary .i32 offset))
    (hword : temporaryWord ctx.config ptr offset = .ok word) :
    GridBounds ctx root (.value x)
      { stop := .word .globalTmps (.lit (.abstract word)), hint := .dynamic offset,
        uses := [ctx.useGlobalTmps] }

/-- The bound that was found is known in advance. -/
theorem gridBounds_of_gridBound {bound : RangeBound} {b : GridBound}
    (h : gridBound ctx root bound = .ok b) : GridBounds ctx root bound b := by
  cases bound with
  | field f =>
    obtain ⟨n, hn, h⟩ := bind_eq_ok.1 h
    cases h
    exact .field hn
  | value x =>
    obtain ⟨kind, hkind, h⟩ := bind_eq_ok.1 h
    rw [kindOf_eq_ok] at hkind
    split at h
    · cases h
      exact .const hkind
    · simp at h
    · obtain ⟨kind', hptr, h⟩ := bind_eq_ok.1 h
      rw [kindOf_eq_ok] at hptr
      split at h
      · obtain ⟨word, hword, h⟩ := bind_eq_ok.1 h
        cases h
        exact .loaded hkind hptr hword
      · simp at h
    · simp at h

/-- How a parallel loop is drafted. -/
theorem draft_rangeFor (hkind : o.kind = .rangeFor) (hstmts : o.stmts = [root])
    (h : draft ctx st o = .ok d) :
    ∃ s bound serial body b st₀ n st' code, ctx.module.stmts[root]? = some s ∧
      s.kind = .rangeFor bound serial body ∧ GridBounds ctx root bound b ∧
      b.uses.foldlM State.use st = .ok st₀ ∧ workgroups ctx.config b.hint = .ok n ∧
      Walks { ctx with gridLoop := some root } st₀ (ctx.module.outline body) st' code ∧
      d = { state := st', body := .countLoop gridLoop code .done,
            prologue := gridPrologue ctx.config b.stop, numWorkgroups := n,
            range := some b.hint } := by
  have hdraft : draft ctx st o = draftRangeFor ctx st root := by
    simp [draft, Offload.root?, hkind, hstmts]
  rw [hdraft] at h
  obtain ⟨s, hs, h⟩ := bind_eq_ok.1 h
  split at h
  · rename_i bound serial body hs'
    obtain ⟨b, hb, h⟩ := bind_eq_ok.1 h
    obtain ⟨st₀, hst₀, h⟩ := bind_eq_ok.1 h
    obtain ⟨n, hn, h⟩ := bind_eq_ok.1 h
    obtain ⟨⟨st', code⟩, hwalk, h⟩ := bind_eq_ok.1 h
    cases h
    exact ⟨s, bound, serial, body, b, st₀, n, st', code, Module.stmt_eq_ok.1 (orFault_eq_ok.1 hs),
      hs', gridBounds_of_gridBound hb, orFault_eq_ok.1 hst₀, hn, walks_of_walk hwalk, rfl⟩
  · simp at h

/-- A member is added, unless it is there. -/
theorem addMember_cases {id : StmtId} {members members' : List StageMember} {m : StageMember}
    (h : State.addMember id members m = .ok members') :
    members.find? (fun other => other.name = m.name) = none ∧ members' = members ++ [m] ∨
      members.find? (fun other => other.name = m.name) = some m ∧ members' = members := by
  unfold State.addMember at h
  split at h
  · rename_i hnone
    exact .inl ⟨hnone, (Except.ok.inj h).symm⟩
  · rename_i other hfind
    split at h
    · rename_i heq
      exact .inr ⟨heq ▸ hfind, (Except.ok.inj h).symm⟩
    · simp at h

theorem addMember_ne_nil {id : StmtId} {members members' : List StageMember} {m : StageMember}
    (h : State.addMember id members m = .ok members') : members' ≠ [] := by
  obtain ⟨-, rfl⟩ | ⟨hfind, rfl⟩ := addMember_cases h
  · simp
  · rintro rfl
    cases hfind

/-- A graphics stage is drafted by a walk over the body of its root. -/
theorem draft_root (hkind : o.kind = .vertexFor ∨ o.kind = .fragmentFor)
    (hstmts : o.stmts = [root]) (h : draft ctx st o = .ok d) :
    ∃ s body outputs st' code, ctx.module.stmts[root]? = some s ∧
      (ctx.stage = .vertex ∧ s.kind = .vertexFor body ∧
          State.addMember root st.outputs .position = .ok outputs ∨
        ctx.stage = .fragment ∧ s.kind = .fragmentFor body ∧ outputs = st.outputs) ∧
      walk ctx { st with outputs } (ctx.module.outline body) = .ok (st', code) ∧
      d = { state := st', body := code } := by
  have hdraft : draft ctx st o = draftGraphics ctx st root := by
    rcases hkind with hkind | hkind <;> simp [draft, Offload.root?, hkind, hstmts]
  rw [hdraft] at h
  obtain ⟨s, hs, h⟩ := bind_eq_ok.1 h
  have hfound := Module.stmt_eq_ok.1 (orFault_eq_ok.1 hs)
  split at h
  · rename_i body hstage hs'
    obtain ⟨outputs, houtputs, h⟩ := bind_eq_ok.1 h
    obtain ⟨⟨st', code⟩, hwalk, h⟩ := bind_eq_ok.1 h
    cases h
    exact ⟨s, body, outputs, st', code, hfound, .inl ⟨hstage, hs', houtputs⟩, hwalk, rfl⟩
  · rename_i body hstage hs'
    obtain ⟨⟨st', code⟩, hwalk, h⟩ := bind_eq_ok.1 h
    cases h
    exact ⟨s, body, _, st', code, hfound, .inr ⟨hstage, hs', rfl⟩, hwalk, rfl⟩
  · simp at h

/-- How a graphics stage is drafted. -/
theorem draft_graphics (hkind : o.kind = .vertexFor ∨ o.kind = .fragmentFor)
    (hstmts : o.stmts = [root]) (h : draft ctx st o = .ok d) :
    ∃ s body outputs st' code, ctx.module.stmts[root]? = some s ∧ s.kind.childBlocks = [body] ∧
      ctx.stage ≠ .compute ∧ (ctx.stage = .vertex → outputs ≠ []) ∧
      Walks ctx { st with outputs } (ctx.module.outline body) st' code ∧
      d = { state := st', body := code } := by
  obtain ⟨s, body, outputs, st', code, hs, hroot, hwalk, rfl⟩ := draft_root hkind hstmts h
  refine ⟨s, body, outputs, st', code, hs, ?_⟩
  rcases hroot with ⟨hstage, hs', houtputs⟩ | ⟨hstage, hs', -⟩
  · exact ⟨by rw [hs']; rfl, by simp [hstage], fun _ => addMember_ne_nil houtputs,
      walks_of_walk hwalk, rfl⟩
  · exact ⟨by rw [hs']; rfl, by simp [hstage], by simp [hstage], walks_of_walk hwalk, rfl⟩

/-- Which statements draw random numbers. -/
theorem Lowers.random {values : Values} {s : Stmt} {l : Lowering} (h : Lowers ctx values s l) :
    l.random = s.kind.isRandom := by
  cases h with
  | sample hkind _ hl | sampleLod hkind _ _ hl =>
    obtain ⟨use, e, type, -, -, rfl⟩ := sampleTexture_eq_ok hl
    rw [hkind]
    rfl
  | _ =>
    rw [‹s.kind = _›]
    rfl

/-- **A walk notes that random numbers are drawn if one of its statements draws one.** -/
theorem Walks.random_eq {st' : State} {o : Outline} {code : Code} (h : Walks ctx st o st' code)
    (ho : o.Owned) : st'.random = (st.random || o.stmts.any fun s => s.kind.isRandom) := by
  refine h.along
    (P := fun st' walked => st'.random = (st.random || walked.any fun s => s.kind.isRandom)) ho
    (fun {_ _ s} _ hblocks hst => ?_) (fun _ hkind hlower happly hst => ?_) (by simp)
  · have hnone : s.kind.isRandom = false := by
      cases hkind : s.kind <;> simp_all [Kind.childBlocks, Kind.isRandom]
    simp [hst, hnone]
  · rw [(apply_values happly).2, (lowers_of_lower hkind hlower).random, hst]
    simp [Bool.or_assoc]

/-- **A draft declares what its bound and its statements use.** -/
theorem draft_globals {P : Resource → Declaration → Prop}
    (ho : o.kind ≠ .serial → ∃ root, o.stmts = [root])
    (hP : ∀ grid values s l, Lowers { ctx with gridLoop := grid } values s l →
      ∀ u ∈ l.uses, P u.resource u.declaration)
    (htmps : P ctx.useGlobalTmps.resource ctx.useGlobalTmps.declaration)
    (hst : ∀ g ∈ st.globals, P g.binding.resource g.declaration) (h : draft ctx st o = .ok d) :
    ∀ g ∈ d.state.globals, P g.binding.resource g.declaration := by
  cases hkind : o.kind with
  | serial =>
    obtain ⟨st', code, hwalks, rfl⟩ := draft_serial hkind h
    exact hwalks.globals (hP ctx.gridLoop) hst
  | rangeFor =>
    obtain ⟨root, hstmts⟩ := ho (by simp [hkind])
    obtain ⟨s, bound, serial, body, b, st₀, n, st', code, -, -, hbound, huses, -, hwalks, rfl⟩ :=
      draft_rangeFor hkind hstmts h
    refine hwalks.globals (hP (some root)) (uses_globals hst ?_ huses)
    cases hbound with
    | field | const => simp
    | loaded => exact List.forall_mem_singleton.2 htmps
  | vertexFor | fragmentFor =>
    obtain ⟨root, hstmts⟩ := ho (by simp [hkind])
    obtain ⟨s, body, outputs, st', code, -, -, -, -, hwalks, rfl⟩ :=
      draft_graphics (by simp [hkind]) hstmts h
    exact hwalks.globals (hP ctx.gridLoop) hst

/-- A walk starts from an empty table. -/
theorem tabled_nil {around : List StmtId}
    (h : ∀ x ∈ around, ctx.module.Plays x .rangeFor → ctx.gridLoop = some x) :
    Tabled ctx [] [] [] around where
  keys hv := by cases hv
  walked_of_visible hx := hx
  loops hx hplays hgrid := absurd (h _ hx hplays) hgrid
  names hx := absurd hx List.not_mem_nil
  temps hx := absurd hx List.not_mem_nil

end Codegen

end WgslKernel
