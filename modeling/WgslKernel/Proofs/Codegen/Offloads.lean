import WgslKernel.Proofs.Codegen.Compile
import WgslKernel.Proofs.Codegen.Failures
import WgslKernel.Proofs.Scoping.Drafts

/-!
# How generating an offload can fail

An offload fails in its walk, or ahead of it: the bound of a parallel loop is not found, there is no
slot for the buffer that holds it, the workgroups cannot be counted, or the position is no output of
a vertex stage.
-/

namespace WgslKernel

namespace Codegen

variable {ctx ctx' : Context} {st st₀ : State} {o : Outline} {off : Offload} {halt : Halt}

/-- What is walked of an offload is placed from the start. -/
theorem Starts.placed (hinv : ctx.module.Inv) (ho : off ∈ ctx.module.groups)
    (h : Starts ctx st off ctx' st₀ o) :
    ∃ around, o.Placed ctx.module [] [] around := by
  have hbody {root : StmtId} {s : Stmt} {body : BlockId} (hserial : off.kind ≠ .serial)
      (hstmts : off.stmts = [root]) (hs : ctx.module.stmts[root]? = some s)
      (hb : s.kind.childBlocks = [body]) :
      ∃ around, (ctx.module.outline body).Placed ctx.module [] [] around := by
    obtain ⟨t, ht, hroot, hblock, -⟩ := standalone_eq hinv ho hserial
    cases hstmts.symm.trans hroot
    cases hs.symm.trans ht
    exact ⟨_, (placed_standalone hinv ho ht hroot hblock hb).1⟩
  cases h with
  | serial => exact ⟨[], hinv.placed_offload ho⟩
  | rangeFor hkind hstmts hs hroot => exact hbody (by simp [hkind]) hstmts hs (by rw [hroot]; rfl)
  | vertexFor hkind hstmts _ hs hroot | fragmentFor hkind hstmts _ hs hroot =>
    exact hbody (by simp [hkind]) hstmts hs (by rw [hroot]; rfl)

/-- What is walked of an offload is all of it, or all but the root. -/
theorem Starts.sublist (h : Starts ctx st off ctx' st₀ o) :
    o.stmts.Sublist (ctx.module.outlineOf ctx.module.outline off.stmts).stmts := by
  have hbody {root : StmtId} {s : Stmt} {body : BlockId} (hstmts : off.stmts = [root])
      (hs : ctx.module.stmts[root]? = some s) (hb : s.kind.childBlocks = [body]) :
      (ctx.module.outline body).stmts.Sublist
        (ctx.module.outlineOf ctx.module.outline off.stmts).stmts := by
    rw [← Module.walked, walked_standalone hs hstmts hb]
    exact List.sublist_cons_self _ _
  cases h with
  | serial => exact .refl _
  | rangeFor _ hstmts hs hroot => exact hbody hstmts hs (by rw [hroot]; rfl)
  | vertexFor _ hstmts _ hs hroot | fragmentFor _ hstmts _ hs hroot =>
    exact hbody hstmts hs (by rw [hroot]; rfl)

/-! ## Ahead of the walk -/

/-- A member is refused only for its type. -/
theorem addMember_eq_error {id : StmtId} {members : List StageMember} {member : StageMember}
    (h : State.addMember id members member = .error halt) :
    ∃ a b, halt = .error (.typeMismatch id (.memberType member.name a b)) := by
  unfold State.addMember at h
  split at h
  · cases h
  · split at h
    · cases h
    · exact ⟨_, _, (Except.error.inj h).symm⟩

/-- Workgroups fail to be counted by contract only. -/
theorem fault_of_workgroups {config : Config} {hint : RangeHint}
    (h : workgroups config hint = .error halt) : ∃ f, halt = .fault f := by
  unfold workgroups at h
  split at h
  · obtain ⟨f, -, he⟩ := orFault_eq_error.1 h
    exact ⟨f, he⟩
  · obtain ⟨f, -, he⟩ := orFault_eq_error.1 h
    exact ⟨f, he⟩
  · cases h

/-- How drafting an offload fails. -/
inductive DraftFails (ctx : Context) (st : State) (off : Offload) (halt : Halt) : Prop where
  /-- In its walk. -/
  | walk {ctx' : Context} {st₀ : State} {o : Outline} (hstarts : Starts ctx st off ctx' st₀ o)
    (h : Codegen.walk ctx' st₀ o = .error halt)
  /-- At the bound of a parallel loop. -/
  | bound {s : Stmt} {bound : RangeBound} {serial : Bool} {body : BlockId}
    (hstmts : off.stmts = [s.id]) (hs : ctx.module.stmts[s.id]? = some s)
    (hkind : s.kind = .rangeFor bound serial body) (h : gridBound ctx s.id bound = .error halt)
  /-- For want of a slot for what the bound is read from. -/
  | slots {s : Stmt} {bound : RangeBound} {serial : Bool} {body : BlockId} {b : GridBound}
    {f : Fault} (hoff : off.kind = .rangeFor) (hstmts : off.stmts = [s.id])
    (hs : ctx.module.stmts[s.id]? = some s) (hkind : s.kind = .rangeFor bound serial body)
    (hb : gridBound ctx s.id bound = .ok b) (h : b.uses.foldlM State.use st = .error f)
    (he : halt = .fault f)
  /-- At the number of workgroups. -/
  | workgroups {hint : RangeHint} (h : Codegen.workgroups ctx.config hint = .error halt)
  /-- At the position of a vertex stage. -/
  | position {s : Stmt} {body : BlockId} (hstmts : off.stmts = [s.id])
    (hs : ctx.module.stmts[s.id]? = some s) (hkind : s.kind = .vertexFor body)
    (h : State.addMember s.id st.outputs .position = .error halt)

/-- **An offload fails in its walk or at its root.** -/
theorem draftFails_of_draft (hinv : ctx.module.Inv) (ho : off ∈ ctx.module.groups)
    (hstage : ctx.stage = off.kind.stage) (h : draft ctx st off = .error halt) :
    DraftFails ctx st off halt := by
  by_cases hserial : off.kind = .serial
  · have hdraft : draft ctx st off = walkTop ctx st off.stmts >>= fun r =>
        .ok { state := r.1, body := r.2 } := by
      simp only [draft, hserial]
    have hfound : ∀ i ∈ off.stmts, ∃ s, ctx.module.stmts[i]? = some s :=
      fun i hi => hinv.found_of_mem_groups ho hi
    rw [hdraft, walkTop_eq_walk hfound] at h
    rcases bind_eq_error.1 h with h | ⟨r, -, h⟩
    · exact .walk (.serial hserial hfound) h
    · cases h
  obtain ⟨s, hs, hstmts, hblock, halone⟩ := standalone_eq hinv ho hserial
  have hstmt := orFault_eq_ok.2 (Module.stmt_eq_ok.2 hs)
  cases hkind : s.kind with
  | rangeFor bound serial body =>
    cases serial with
    | true => simp [hkind, OffloadKind.standalone?] at halone
    | false =>
      have hoff : off.kind = .rangeFor := by
        simpa [hkind, OffloadKind.standalone?] using halone.symm
      simp only [draft, Offload.root?, hoff, hstmts, List.head?_cons, draftRangeFor, hstmt, ok_bind,
        hkind] at h
      rcases bind_eq_error.1 h with h | ⟨b, hb, h⟩
      · exact .bound hstmts hs hkind h
      rcases bind_eq_error.1 h with h | ⟨st₀, huses, h⟩
      · obtain ⟨f, h, he⟩ := orFault_eq_error.1 h
        exact .slots hoff hstmts hs hkind hb h he
      rcases bind_eq_error.1 h with h | ⟨n, hn, h⟩
      · exact .workgroups h
      rcases bind_eq_error.1 h with h | ⟨r, -, h⟩
      · exact .walk (.rangeFor hoff hstmts hs hkind hb (orFault_eq_ok.1 huses) hn) h
      · cases h
  | vertexFor body =>
    have hoff : off.kind = .vertexFor := by simpa [hkind, OffloadKind.standalone?] using halone.symm
    have hvertex : ctx.stage = .vertex := by rw [hstage, hoff]; rfl
    simp only [draft, Offload.root?, hoff, hstmts, List.head?_cons, draftGraphics, hstmt, ok_bind,
      hkind, hvertex] at h
    rcases bind_eq_error.1 h with h | ⟨outputs, houtputs, h⟩
    · exact .position hstmts hs hkind h
    rcases bind_eq_error.1 h with h | ⟨r, -, h⟩
    · exact .walk (.vertexFor hoff hstmts hvertex hs hkind houtputs) h
    · cases h
  | fragmentFor body =>
    have hoff : off.kind = .fragmentFor := by
      simpa [hkind, OffloadKind.standalone?] using halone.symm
    have hfragment : ctx.stage = .fragment := by rw [hstage, hoff]; rfl
    simp only [draft, Offload.root?, hoff, hstmts, List.head?_cons, draftGraphics, hstmt, ok_bind,
      hkind, hfragment] at h
    rcases bind_eq_error.1 h with h | ⟨r, -, h⟩
    · exact .walk (.fragmentFor hoff hstmts hfragment hs hkind) h
    · cases h
  | _ => simp [hkind, OffloadKind.standalone?] at halone

end Codegen

variable {m : Module} {o : Offload} {signature : Signature} {config : Config}
  {previous : Option Task}

/-- Generating an offload fails at the bindings it starts from, or in its draft. -/
theorem generate_eq_error {halt : Halt}
    (h : generate m o signature config previous = .error halt) :
    (∃ f, BindingMap.ofBindings (Codegen.seed previous) = .error f ∧ halt = .fault f) ∨
      ∃ bindings, BindingMap.ofBindings (Codegen.seed previous) = .ok bindings ∧
        Codegen.draft (Codegen.contextOf m o signature config previous) { bindings } o =
          .error halt := by
  have hprogram : Codegen.program m o signature config previous =
      (orFault (BindingMap.ofBindings (Codegen.seed previous)) >>= fun bindings =>
        Codegen.draft (Codegen.contextOf m o signature config previous) { bindings } o >>= fun d =>
          .ok (Codegen.assemble (Codegen.contextOf m o signature config previous) o.kind d)) := by
    cases previous <;> rfl
  rw [generate, hprogram] at h
  rcases bind_eq_error.1 h with h | ⟨p, -, h⟩
  · rcases bind_eq_error.1 h with h | ⟨bindings, hbindings, h⟩
    · exact .inl (orFault_eq_error.1 h)
    rcases bind_eq_error.1 h with h | ⟨d, -, h⟩
    · exact .inr ⟨bindings, orFault_eq_ok.1 hbindings, h⟩
    · cases h
  · cases h

/-- An error about the kernel is that of a draft. -/
theorem draft_of_generate_eq_error {e : CodegenError}
    (h : generate m o signature config previous = .error (.error e)) :
    ∃ bindings, Codegen.draft (Codegen.contextOf m o signature config previous) { bindings } o =
      .error (.error e) := by
  rcases generate_eq_error h with ⟨_, -, he⟩ | ⟨bindings, -, h⟩
  · cases he
  · exact ⟨bindings, h⟩

end WgslKernel
