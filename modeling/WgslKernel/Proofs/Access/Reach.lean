import WgslKernel.Proofs.Bindings.FirstUse

/-!
# How far a walk comes

`Reaches` says that a walk comes to a statement, and with which values at hand.  What goes wrong at
a statement that is reached is the outcome of the whole; if nothing goes wrong every statement is
reached, however deep it is nested.
-/

namespace WgslKernel

open List

/-- Statements that a walk goes into. -/
def Kind.isStructured : Kind → Bool
  | branch .. | whileTrue _ | rangeFor .. => true
  | _ => false

namespace Codegen

variable {ctx ctx' : Context} {st st' st₀ : State} {s t : Stmt} {o : Outline} {off : Offload}
  {code : Code} {e : Halt}

/-- A statement is walked by itself, and then the ones behind it. -/
theorem walk_cons (s : Stmt) (first second rest : Outline) :
    walk ctx st (.cons s first second rest) =
      walk ctx st (.cons s first second .nil) >>= fun r =>
        walk ctx r.1 rest >>= fun q => .ok (q.1, r.2 ++ q.2) := by
  rw [walk, walk]
  split
  · simp only [walk, bind_assoc, ok_bind]
    congr
    funext c
    congr
    funext r
    congr
    funext q
    cases second.isEmpty <;> rfl
  · simp only [walk, bind_assoc, ok_bind]
    rfl
  · simp only [walk, bind_assoc, ok_bind]
    rfl
  · simp only [walk, bind_assoc, ok_bind, Code.append_done]

/-- Walking statements one by one is walking the outline they make up, also when it fails. -/
theorem walkTop_eq_walk {ids : List StmtId}
    (hids : ∀ i ∈ ids, ∃ s, ctx.module.stmts[i]? = some s) :
    walkTop ctx st ids = walk ctx st (ctx.module.outlineOf ctx.module.outline ids) := by
  induction ids generalizing st with
  | nil => rfl
  | cons i ids ih =>
    obtain ⟨⟨s, hs⟩, hrest⟩ := forall_mem_cons.1 hids
    have hat : ctx.module.outlineAt i = .ok (ctx.module.outlineOf ctx.module.outline [i]) :=
      bind_eq_ok.2 ⟨s, Module.stmt_eq_ok.2 hs, rfl⟩
    rw [walkTop, orFault_eq_ok.2 hat, ok_bind, Module.outlineOf_cons hs, Module.outlineOf_cons hs,
      walk_cons s _ _ (ctx.module.outlineOf ctx.module.outline ids)]
    refine congrArg _ (funext fun ⟨st₁, c⟩ => ?_)
    simp only [ih hrest]

/-! ## Statements that are reached -/

/-- A walk of an outline from state `st` comes to statement `t` in state `st'`. -/
inductive Reaches (ctx : Context) : State → Outline → State → Stmt → Prop where
  | here {st : State} {s : Stmt} {first second rest : Outline} :
    Reaches ctx st (.cons s first second rest) st s
  | thenPart {st st' : State} {s t : Stmt} {first second rest : Outline} {cond : StmtId}
    {b₁ b₂ : BlockId} {c : Expr} (hkind : s.kind = .branch cond b₁ b₂)
    (hcond : branchCondition ctx st.values s.id cond = .ok c) (h : Reaches ctx st first st' t) :
    Reaches ctx st (.cons s first second rest) st' t
  | elsePart {st st₁ st' : State} {s t : Stmt} {first second rest : Outline} {cond : StmtId}
    {b₁ b₂ : BlockId} {c : Expr} {yes : Code} (hkind : s.kind = .branch cond b₁ b₂)
    (hcond : branchCondition ctx st.values s.id cond = .ok c)
    (hfirst : walk ctx st first = .ok (st₁, yes)) (h : Reaches ctx st₁ second st' t) :
    Reaches ctx st (.cons s first second rest) st' t
  | loopBody {st st' : State} {s t : Stmt} {first second rest : Outline} {b : BlockId}
    (hkind : s.kind = .whileTrue b) (h : Reaches ctx st first st' t) :
    Reaches ctx st (.cons s first second rest) st' t
  | countBody {st st' : State} {s t : Stmt} {first second rest : Outline} {bound : RangeBound}
    {serial : Bool} {b : BlockId} {stop : Expr} (hkind : s.kind = .rangeFor bound serial b)
    (hstop : loopBound ctx st.values s.id bound = .ok stop) (h : Reaches ctx st first st' t) :
    Reaches ctx st (.cons s first second rest) st' t
  | later {st st₁ st' : State} {s t : Stmt} {first second rest : Outline} {code : Code}
    (hdone : walk ctx st (.cons s first second .nil) = .ok (st₁, code))
    (h : Reaches ctx st₁ rest st' t) : Reaches ctx st (.cons s first second rest) st' t

/-- **What every lowered statement preserves holds wherever a walk comes to.** -/
theorem Reaches.keeps {P : State → Prop} (h : Reaches ctx st o st' t)
    (hP : ∀ {st st' : State} {s : Stmt} {l : Lowering}, s ∈ o.stmts → P st →
      Lowers ctx st.values s l → st.apply s.id l = .ok st' → P st')
    (hst : P st) : P st' := by
  induction h with
  | here => exact hst
  | thenPart _ _ _ ih | loopBody _ _ ih | countBody _ _ _ ih =>
    exact ih (fun hs => hP (by simp [Outline.stmts, hs])) hst
  | elsePart _ _ hwalk _ ih =>
    refine ih (fun hs => hP (by simp [Outline.stmts, hs])) ?_
    exact (walks_of_walk hwalk).keeps (fun hs => hP (by simp [Outline.stmts, hs])) hst
  | later hdone _ ih =>
    refine ih (fun hs => hP (by simp [Outline.stmts, hs])) ?_
    refine (walks_of_walk hdone).keeps (fun hs => hP ?_) hst
    simp only [Outline.stmts, append_nil, mem_cons, mem_append] at hs ⊢
    exact hs.imp_right fun hs => hs.imp_right .inl

/-- A statement that a walk does not go into is lowered where it is reached. -/
theorem walk_eq_error_of_lower {first second rest : Outline} (hleaf : s.kind.isStructured = false)
    (he : lower ctx st.values s = .error e) :
    walk ctx st (.cons s first second rest) = .error e := by
  cases hkind : s.kind with
  | branch | whileTrue | rangeFor => simp [hkind, Kind.isStructured] at hleaf
  | _ => simp [walk, hkind, he]

/-- **What goes wrong at a statement that is reached goes wrong in the walk.** -/
theorem Reaches.walk_eq_error (h : Reaches ctx st o st' t) (hleaf : t.kind.isStructured = false)
    (he : lower ctx st'.values t = .error e) : walk ctx st o = .error e := by
  induction h with
  | here => exact walk_eq_error_of_lower hleaf he
  | thenPart hkind hcond _ ih => simp [walk, hkind, hcond, ih hleaf he]
  | elsePart hkind hcond hfirst _ ih => simp [walk, hkind, hcond, hfirst, ih hleaf he]
  | loopBody hkind _ ih => simp [walk, hkind, ih hleaf he]
  | countBody hkind hstop _ ih => simp [walk, hkind, hstop, ih hleaf he]
  | later hdone _ ih => rw [walk_cons, hdone, ok_bind, ih hleaf he, error_bind]

/-- **A walk that succeeds reaches all statements of its outline.** -/
theorem reaches_of_mem (h : walk ctx st o = .ok (st', code)) (ho : o.Owned) (ht : t ∈ o.stmts) :
    ∃ st₁, Reaches ctx st o st₁ t := by
  induction o generalizing st st' code with
  | nil => simp [Outline.stmts] at ht
  | cons s first second rest ihFirst ihSecond ihRest =>
    obtain ⟨hfirst, hsecond, hf, hs, hr⟩ := ho
    rw [walk_cons] at h
    obtain ⟨⟨st₁, c⟩, hdone, h⟩ := bind_eq_ok.1 h
    obtain ⟨⟨st₂, d⟩, hrest, h⟩ := bind_eq_ok.1 h
    simp only [Outline.stmts, mem_cons, mem_append] at ht
    rcases ht with rfl | ht | ht | ht
    · exact ⟨st, .here⟩
    · -- A statement with something in its first block is one that the walk goes into.
      have hwalk := hdone
      rw [walk] at hwalk
      split at hwalk
      · obtain ⟨cond, hcond, hwalk⟩ := bind_eq_ok.1 hwalk
        obtain ⟨⟨st₃, yes⟩, hyes, hwalk⟩ := bind_eq_ok.1 hwalk
        obtain ⟨st₄, hreach⟩ := ihFirst hyes hf ht
        exact ⟨st₄, .thenPart ‹_› hcond hreach⟩
      · obtain ⟨⟨st₃, body⟩, hbody, hwalk⟩ := bind_eq_ok.1 hwalk
        obtain ⟨st₄, hreach⟩ := ihFirst hbody hf ht
        exact ⟨st₄, .loopBody ‹_› hreach⟩
      · obtain ⟨stop, hstop, hwalk⟩ := bind_eq_ok.1 hwalk
        obtain ⟨⟨st₃, body⟩, hbody, hwalk⟩ := bind_eq_ok.1 hwalk
        obtain ⟨st₄, hreach⟩ := ihFirst hbody hf ht
        exact ⟨st₄, .countBody ‹_› hstop hreach⟩
      · rename_i hb hw hn
        obtain ⟨l, hl, hwalk⟩ := bind_eq_ok.1 hwalk
        rw [hfirst (by rw [childBlocks_of_lower hl hb hw hn]; rfl)] at ht
        simp [Outline.stmts] at ht
    · have hwalk := hdone
      rw [walk] at hwalk
      split at hwalk
      · obtain ⟨cond, hcond, hwalk⟩ := bind_eq_ok.1 hwalk
        obtain ⟨⟨st₃, yes⟩, hyes, hwalk⟩ := bind_eq_ok.1 hwalk
        obtain ⟨⟨st₄, no⟩, hno, hwalk⟩ := bind_eq_ok.1 hwalk
        obtain ⟨st₅, hreach⟩ := ihSecond hno hs ht
        exact ⟨st₅, .elsePart ‹_› hcond hyes hreach⟩
      · rename_i b hkind
        rw [hsecond (by rw [hkind]; exact Nat.le_refl 1)] at ht
        simp [Outline.stmts] at ht
      · rename_i bound serial b hkind
        rw [hsecond (by rw [hkind]; exact Nat.le_refl 1)] at ht
        simp [Outline.stmts] at ht
      · rename_i hb hw hn
        obtain ⟨l, hl, hwalk⟩ := bind_eq_ok.1 hwalk
        rw [hsecond (by rw [childBlocks_of_lower hl hb hw hn]; exact Nat.zero_le 1)] at ht
        simp [Outline.stmts] at ht
    · obtain ⟨st₃, hreach⟩ := ihRest hrest hr ht
      exact ⟨st₃, .later hdone hreach⟩

/-- Each statement of a walk that succeeds was lowered, unless the walk went into it. -/
theorem exists_lowers (h : walk ctx st o = .ok (st', code)) (ho : o.Owned) (ht : t ∈ o.stmts)
    (hleaf : t.kind.isStructured = false) : ∃ values l, Lowers ctx values t l := by
  obtain ⟨st₁, hreach⟩ := reaches_of_mem h ho ht
  cases hlower : lower ctx st₁.values t with
  | error e =>
    rw [hreach.walk_eq_error hleaf hlower] at h
    cases h
  | ok l =>
    refine ⟨st₁.values, l, lowers_of_lower (childBlocks_of_lower hlower ?_ ?_ ?_) hlower⟩
    all_goals
      intros
      intro hkind
      simp [hkind, Kind.isStructured] at hleaf

/-! ## The walk of an offload -/

/-- Drafting an offload comes to the walk of an outline, in some context and from some state. -/
inductive Starts (ctx : Context) (st : State) (off : Offload) :
    Context → State → Outline → Prop where
  | serial (hkind : off.kind = .serial)
    (hfound : ∀ i ∈ off.stmts, ∃ s, ctx.module.stmts[i]? = some s) :
    Starts ctx st off ctx st (ctx.module.outlineOf ctx.module.outline off.stmts)
  | rangeFor {root : StmtId} {s : Stmt} {bound : RangeBound} {serial : Bool} {body : BlockId}
    {b : GridBound} {st₀ : State} {n : Nat} (hkind : off.kind = .rangeFor)
    (hstmts : off.stmts = [root]) (hs : ctx.module.stmts[root]? = some s)
    (hroot : s.kind = .rangeFor bound serial body) (hbound : gridBound ctx root bound = .ok b)
    (huses : b.uses.foldlM State.use st = .ok st₀) (hn : workgroups ctx.config b.hint = .ok n) :
    Starts ctx st off { ctx with gridLoop := some root } st₀ (ctx.module.outline body)
  | vertexFor {root : StmtId} {s : Stmt} {body : BlockId} {outputs : List StageMember}
    (hkind : off.kind = .vertexFor) (hstmts : off.stmts = [root]) (hstage : ctx.stage = .vertex)
    (hs : ctx.module.stmts[root]? = some s) (hroot : s.kind = .vertexFor body)
    (houtputs : State.addMember root st.outputs .position = .ok outputs) :
    Starts ctx st off ctx { st with outputs } (ctx.module.outline body)
  | fragmentFor {root : StmtId} {s : Stmt} {body : BlockId} (hkind : off.kind = .fragmentFor)
    (hstmts : off.stmts = [root]) (hstage : ctx.stage = .fragment)
    (hs : ctx.module.stmts[root]? = some s) (hroot : s.kind = .fragmentFor body) :
    Starts ctx st off ctx st (ctx.module.outline body)

namespace Starts

theorem context_eq (h : Starts ctx st off ctx' st₀ o) :
    ctx' = { ctx with gridLoop := ctx'.gridLoop } := by
  cases h <;> rfl

theorem owned (h : Starts ctx st off ctx' st₀ o) : o.Owned := by
  cases h with
  | serial => exact Module.owned_outlineOf (Module.owned_outline _) _
  | rangeFor | vertexFor | fragmentFor => exact Module.owned_outline _ _

theorem values_eq (h : Starts ctx st off ctx' st₀ o) : st₀.values = st.values := by
  cases h with
  | serial | vertexFor | fragmentFor => rfl
  | rangeFor _ _ _ _ _ huses =>
    obtain ⟨_, _, rfl⟩ := uses_eq huses
    rfl

/-- A draft is its walk, whose code stands by itself or in the parallel loop. -/
theorem draft_eq (h : Starts ctx st off ctx' st₀ o) : ∃ wrap : State × Code → Draft,
    draft ctx st off = walk ctx' st₀ o >>= (fun r => .ok (wrap r)) ∧ ∀ r, (wrap r).state = r.1 ∧
      ((wrap r).body = r.2 ∨ (wrap r).body = .countLoop gridLoop r.2 .done) := by
  cases h with
  | serial hkind hfound =>
    refine ⟨fun r => { state := r.1, body := r.2 }, ?_, fun r => ⟨rfl, .inl rfl⟩⟩
    simp only [draft, hkind, walkTop_eq_walk hfound]
  | @rangeFor _ _ _ _ _ b _ n hkind hstmts hs hroot hbound huses hn =>
    have hstmt := orFault_eq_ok.2 (Module.stmt_eq_ok.2 hs)
    refine ⟨fun r =>
      { state := r.1, prologue := gridPrologue ctx.config b.stop,
        body := .countLoop gridLoop r.2 .done, numWorkgroups := n, range := some b.hint }, ?_,
      fun r => ⟨rfl, .inr rfl⟩⟩
    simp [draft, Offload.root?, hkind, hstmts, draftRangeFor, hstmt, hroot, hbound,
      orFault_eq_ok.2 huses, hn]
  | vertexFor hkind hstmts hstage hs hroot houtputs =>
    have hstmt := orFault_eq_ok.2 (Module.stmt_eq_ok.2 hs)
    refine ⟨fun r => { state := r.1, body := r.2 }, ?_, fun r => ⟨rfl, .inl rfl⟩⟩
    simp [draft, Offload.root?, hkind, hstmts, draftGraphics, hstmt, hroot, hstage, houtputs]
  | fragmentFor hkind hstmts hstage hs hroot =>
    have hstmt := orFault_eq_ok.2 (Module.stmt_eq_ok.2 hs)
    refine ⟨fun r => { state := r.1, body := r.2 }, ?_, fun r => ⟨rfl, .inl rfl⟩⟩
    simp [draft, Offload.root?, hkind, hstmts, draftGraphics, hstmt, hroot, hstage]

/-- What the walk fails with is what the draft fails with. -/
theorem draft_eq_error (h : Starts ctx st off ctx' st₀ o) (he : walk ctx' st₀ o = .error e) :
    draft ctx st off = .error e := by
  obtain ⟨wrap, hdraft, -⟩ := h.draft_eq
  rw [hdraft, he]
  rfl

/-- A statement of an offload is in the outline that is walked, or it is the root and owns it. -/
theorem mem_or_root (h : Starts ctx st off ctx' st₀ o)
    (ht : t ∈ (ctx.module.outlineOf ctx.module.outline off.stmts).stmts) :
    t ∈ o.stmts ∨ off.kind ≠ .serial ∧ (∃ root, off.stmts = [root] ∧
      ctx.module.stmts[root]? = some t) ∧ t.kind.childBlocks ≠ [] := by
  have hcut {root : StmtId} {s : Stmt} {body : BlockId} (hstmts : off.stmts = [root])
      (hs : ctx.module.stmts[root]? = some s) (hbody : s.kind.childBlocks = [body])
      (hserial : off.kind ≠ .serial) : t ∈ (ctx.module.outline body).stmts ∨
        off.kind ≠ .serial ∧ (∃ root, off.stmts = [root] ∧ ctx.module.stmts[root]? = some t) ∧
          t.kind.childBlocks ≠ [] := by
    rw [← Module.walked, walked_standalone hs hstmts hbody] at ht
    rcases mem_cons.1 ht with rfl | ht
    · exact .inr ⟨hserial, ⟨root, hstmts, hs⟩, by simp [hbody]⟩
    · exact .inl ht
  cases h with
  | serial => exact .inl ht
  | rangeFor hkind hstmts hs hroot =>
    exact hcut hstmts hs (by rw [hroot]; rfl) (by simp [hkind])
  | vertexFor hkind hstmts _ hs hroot | fragmentFor hkind hstmts _ hs hroot =>
    exact hcut hstmts hs (by rw [hroot]; rfl) (by simp [hkind])

end Starts

/-- Statements that were walked are there. -/
theorem found_of_walkTop {ids : List StmtId} (h : walkTop ctx st ids = .ok (st', code)) :
    ∀ i ∈ ids, ∃ s, ctx.module.stmts[i]? = some s := by
  induction ids generalizing st code with
  | nil => simp
  | cons i ids ih =>
    obtain ⟨o, ho, h⟩ := bind_eq_ok.1 h
    obtain ⟨⟨st₁, c⟩, -, h⟩ := bind_eq_ok.1 h
    obtain ⟨⟨st₂, tail⟩, hrest, h⟩ := bind_eq_ok.1 h
    cases h
    obtain ⟨s, hs, -⟩ := bind_eq_ok.1 (orFault_eq_ok.1 ho)
    exact forall_mem_cons.2 ⟨⟨s, Module.stmt_eq_ok.1 hs⟩, ih hrest⟩

/-- A draft that succeeds has made its walk. -/
theorem starts_of_draft {d : Draft} (hoff : off.kind ≠ .serial → ∃ root, off.stmts = [root])
    (hstage : ctx.stage = off.kind.stage) (h : draft ctx st off = .ok d) : ∃ ctx' st₀ o code,
      Starts ctx st off ctx' st₀ o ∧ walk ctx' st₀ o = .ok (d.state, code) := by
  cases hkind : off.kind with
  | serial =>
    have hdraft : draft ctx st off = walkTop ctx st off.stmts >>= fun r =>
        .ok { state := r.1, body := r.2 } := by
      simp only [draft, hkind]
    rw [hdraft] at h
    obtain ⟨⟨st', code⟩, hwalk, h⟩ := bind_eq_ok.1 h
    cases h
    have hfound := found_of_walkTop hwalk
    rw [walkTop_eq_walk hfound] at hwalk
    exact ⟨_, _, _, code, .serial hkind hfound, hwalk⟩
  | rangeFor =>
    obtain ⟨root, hstmts⟩ := hoff (by simp [hkind])
    have hdraft : draft ctx st off = draftRangeFor ctx st root := by
      simp [draft, Offload.root?, hkind, hstmts]
    rw [hdraft] at h
    obtain ⟨s, hs, h⟩ := bind_eq_ok.1 h
    split at h
    · rename_i bound serial body hroot
      obtain ⟨b, hb, h⟩ := bind_eq_ok.1 h
      obtain ⟨st₁, huses, h⟩ := bind_eq_ok.1 h
      obtain ⟨n, hn, h⟩ := bind_eq_ok.1 h
      obtain ⟨⟨st', code⟩, hwalk, h⟩ := bind_eq_ok.1 h
      cases h
      exact ⟨_, _, _, code, .rangeFor hkind hstmts (Module.stmt_eq_ok.1 (orFault_eq_ok.1 hs)) hroot
        hb (orFault_eq_ok.1 huses) hn, hwalk⟩
    · simp at h
  | vertexFor =>
    obtain ⟨root, hstmts⟩ := hoff (by simp [hkind])
    obtain ⟨s, body, outputs, st', code, hs, hroot, hwalk, rfl⟩ :=
      draft_root (.inl hkind) hstmts h
    rcases hroot with ⟨hvertex, hroot, houtputs⟩ | ⟨hfragment, -⟩
    · exact ⟨_, _, _, code, .vertexFor hkind hstmts hvertex hs hroot houtputs, hwalk⟩
    · rw [hstage, hkind] at hfragment
      cases hfragment
  | fragmentFor =>
    obtain ⟨root, hstmts⟩ := hoff (by simp [hkind])
    obtain ⟨s, body, outputs, st', code, hs, hroot, hwalk, rfl⟩ :=
      draft_root (.inr hkind) hstmts h
    rcases hroot with ⟨hvertex, -⟩ | ⟨hfragment, hroot, rfl⟩
    · rw [hstage, hkind] at hvertex
      cases hvertex
    · exact ⟨_, _, _, code, .fragmentFor hkind hstmts hfragment hs hroot, hwalk⟩

/-- Generating an offload comes to statement `t`, in state `st'` of its walk. -/
def Reached (m : Module) (off : Offload) (signature : Signature) (config : Config)
    (previous : Option Task) (st' : State) (t : Stmt) : Prop :=
  ∃ bindings ctx' st₀ o,
    BindingMap.ofBindings (match previous with | some t => t.bindings | none => []) = .ok bindings ∧
    Starts (contextOf m off signature config previous) { bindings } off ctx' st₀ o ∧
    Reaches ctx' st₀ o st' t

/-- **What goes wrong at a statement that is reached is the outcome of generating the offload.** -/
theorem Reached.generate_eq_error {m : Module} {signature : Signature} {config : Config}
    {previous : Option Task} (h : Reached m off signature config previous st' t)
    (hleaf : t.kind.isStructured = false)
    (he : ∀ grid, lower { contextOf m off signature config previous with gridLoop := grid }
      st'.values t = .error e) : generate m off signature config previous = .error e := by
  obtain ⟨bindings, ctx', st₀, o, hbindings, hstarts, hreaches⟩ := h
  have hwalk : walk ctx' st₀ o = .error e := by
    refine hreaches.walk_eq_error hleaf ?_
    rw [hstarts.context_eq]
    exact he ctx'.gridLoop
  have hprogram : program m off signature config previous = .error e :=
    bind_eq_error.2 (.inr ⟨bindings, orFault_eq_ok.2 hbindings,
      bind_eq_error.2 (.inl (hstarts.draft_eq_error hwalk))⟩)
  rw [generate, hprogram, error_bind]

end Codegen

end WgslKernel
