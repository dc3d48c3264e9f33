import WgslKernel.Proofs.Access.Reach
import WgslKernel.Proofs.Module.Partition

/-!
# Offloads are generated independently

A generator is handed a whole module and one offload of it.  Two modules that agree on the offload
(`Module.SameFor`) give the same shader or the same error, because lowering looks at nothing but the
operands of a statement and the statements around it (`Module.SameView`).
-/

namespace WgslKernel

open List

/-! ## What a statement sees of its module -/

/-- Statement `x` is there in both modules, and of the same kind. -/
def Module.SameKind (m m' : Module) (x : StmtId) : Prop :=
  ∃ kind, m.kind? x = some kind ∧ m'.kind? x = some kind

/-- Two modules look the same from a statement. -/
structure Module.SameView (m m' : Module) (s : Stmt) : Prop where
  operands : ∀ x ∈ s.kind.operands, m.SameKind m' x
  around : m'.enclosing s.block = m.enclosing s.block

namespace Codegen

/-- The same walk, over another module. -/
def Context.over (ctx : Context) (m : Module) : Context := { ctx with module := m }

variable {ctx : Context} {m : Module} {values : Values} {st : State} {s : Stmt}
  {id x y root : StmtId} {xs : List StmtId}

theorem kindOf_over (h : ctx.module.SameKind m x) : (ctx.over m).kindOf x = ctx.kindOf x := by
  obtain ⟨kind, hx, hx'⟩ := h
  have hover : (ctx.over m).kindOf x = .ok kind := kindOf_eq_ok.2 hx'
  rw [hover, kindOf_eq_ok.2 hx]

theorem value_over (h : ctx.module.SameKind m x) :
    (ctx.over m).value values id x = ctx.value values id x := by
  rw [Context.value, Context.value, kindOf_over h]

theorem scalar_over (h : ctx.module.SameKind m x) :
    (ctx.over m).scalar values id x = ctx.scalar values id x := by
  rw [Context.scalar, Context.scalar, value_over h]

theorem mapM_congr {ε α β : Type} {f g : α → Except ε β} {l : List α} (h : ∀ a ∈ l, f a = g a) :
    l.mapM f = l.mapM g := by
  induction l with
  | nil => rfl
  | cons a l ih =>
    obtain ⟨ha, hl⟩ := forall_mem_cons.1 h
    rw [mapM_cons, mapM_cons, ha, ih hl]

theorem floatOperand_over (h : ctx.module.SameKind m x) :
    floatOperand (ctx.over m) values id x = floatOperand ctx values id x := by
  rw [floatOperand, floatOperand, scalar_over h]

theorem floatVector_over {q : Quad} (h : ∀ x ∈ q.toList, ctx.module.SameKind m x) :
    floatVector (ctx.over m) values id q = floatVector ctx values id q := by
  rw [floatVector, floatVector, mapM_congr fun x hx => floatOperand_over (h x hx)]

theorem operandWords_over (h : ∀ x ∈ xs, ctx.module.SameKind m x) :
    operandWords (ctx.over m) values id xs = operandWords ctx values id xs := by
  induction xs with
  | nil => rfl
  | cons x xs ih =>
    obtain ⟨hx, hxs⟩ := forall_mem_cons.1 h
    rw [operandWords, operandWords, scalar_over hx, ih hxs]

theorem indexTerms_over {strides : List Nat} (h : ∀ x ∈ xs, ctx.module.SameKind m x) :
    indexTerms (ctx.over m) values id xs strides = indexTerms ctx values id xs strides := by
  induction xs generalizing strides with
  | nil => cases strides <;> rfl
  | cons x xs ih =>
    obtain ⟨hx, hxs⟩ := forall_mem_cons.1 h
    cases strides with
    | nil => rfl
    | cons stride strides => rw [indexTerms, indexTerms, value_over hx, ih hxs]

theorem fieldOf_over (h : ctx.module.SameKind m x) :
    fieldOf (ctx.over m) id x = fieldOf ctx id x := by
  rw [fieldOf, fieldOf, kindOf_over h]

theorem temporarySlot_over (h : ctx.module.SameKind m x) :
    temporarySlot (ctx.over m) values id x = temporarySlot ctx values id x := by
  rw [temporarySlot, temporarySlot, kindOf_over h, value_over h]

theorem atomicTarget_over {write : Bool} (h : ctx.module.SameKind m x) :
    atomicTarget (ctx.over m) values id x write = atomicTarget ctx values id x write := by
  rw [atomicTarget, atomicTarget, kindOf_over h, value_over h]
  rfl

theorem lowerBuiltinOutput_over {output : BuiltinOutput}
    (h : ∀ x ∈ output.operands, ctx.module.SameKind m x) :
    lowerBuiltinOutput (ctx.over m) values s output = lowerBuiltinOutput ctx values s output := by
  cases output with
  | position q => rw [lowerBuiltinOutput, lowerBuiltinOutput, floatVector_over h]; rfl
  | fragDepth v =>
    rw [lowerBuiltinOutput, lowerBuiltinOutput, floatOperand_over (h v mem_cons_self)]
    rfl
  | color location q => rw [lowerBuiltinOutput, lowerBuiltinOutput, floatVector_over h]; rfl

theorem lowerTexture_over {access : TextureAccess} {texture : Texture}
    (h : ∀ x ∈ xs ++ access.operands, ctx.module.SameKind m x) :
    lowerTexture (ctx.over m) values id access texture xs =
      lowerTexture ctx values id access texture xs := by
  obtain ⟨hxs, hops⟩ := forall_mem_append.1 h
  rw [lowerTexture, lowerTexture, mapM_congr fun x hx => scalar_over (hxs x hx)]
  cases access with
  | sample | load => rfl
  | sampleLod level => simp only [scalar_over (hops level mem_cons_self)]; rfl
  | store texel => simp only [floatVector_over hops]; rfl

/-- **Lowering looks at a module only through the view of the statement.** -/
theorem lower_over (h : ctx.module.SameView m s) :
    lower (ctx.over m) values s = lower ctx values s := by
  obtain ⟨id, block, kind⟩ := s
  obtain ⟨hops, haround⟩ := h
  -- The first operand, and the second.
  have hfst {x : StmtId} {xs : List StmtId} (hk : kind.operands = x :: xs) :=
    hops x (hk ▸ mem_cons_self)
  have hsnd {x y : StmtId} (hk : kind.operands = [x, y]) := hops y (by simp [hk])
  cases kind with
  | const | argLoad | rand | exitLoop | nextIteration | alloca | temporary | vertexInput
  | fragmentInput | discard | branch | whileTrue | rangeFor | vertexFor | fragmentFor => rfl
  | builtinInput input => cases input <;> rfl
  | loopIndex loop =>
    simp only [lower, lowerLoopIndex]
    rw [← haround]
    rfl
  | unary op x => simp only [lower, lowerUnary, value_over (hfst rfl)]
  | binary op x y => simp only [lower, lowerBinary, value_over (hfst rfl), value_over (hsnd rfl)]
  | localLoad x => simp only [lower, lowerLocalLoad, value_over (hfst rfl)]
  | localStore x y =>
    simp only [lower, lowerLocalStore, value_over (hfst rfl), value_over (hsnd rfl)]
  | globalPtr field indices offset =>
    have hindices : ∀ x ∈ indices, ctx.module.SameKind m x := hops
    simp only [lower, lowerGlobalPtr, indexTerms_over hindices]
  | globalLoad x =>
    simp only [lower, lowerGlobalLoad, fieldOf_over (hfst rfl), value_over (hfst rfl)]
    rfl
  | globalStore x y =>
    simp only [lower, lowerGlobalStore, fieldOf_over (hfst rfl), value_over (hfst rfl),
      value_over (hsnd rfl)]
    rfl
  | temporaryLoad x =>
    simp only [lower, lowerTemporaryLoad, temporarySlot_over (hfst rfl)]
    rfl
  | temporaryStore x y =>
    simp only [lower, lowerTemporaryStore, temporarySlot_over (hfst rfl), value_over (hsnd rfl)]
    rfl
  | atomic op x y =>
    simp only [lower, lowerAtomic, atomicTarget_over (hfst rfl), value_over (hsnd rfl)]
  | atomicLoad x => simp only [lower, lowerAtomicLoad, atomicTarget_over (hfst rfl)]
  | atomicStore x y =>
    simp only [lower, lowerAtomicStore, atomicTarget_over (hfst rfl), value_over (hsnd rfl)]
  | vertexOutput x location =>
    simp only [lower, lowerVertexOutput, value_over (hfst rfl)]
    rfl
  | builtinOutput output => exact lowerBuiltinOutput_over hops
  | derivative axis x =>
    simp only [lower, lowerDerivative, value_over (hfst rfl)]
    rfl
  | texture access texture coords => exact lowerTexture_over hops
  | extract x index => simp only [lower, lowerExtract, value_over (hfst rfl)]
  | ret operands =>
    have hoperands : ∀ x ∈ operands, ctx.module.SameKind m x := hops
    simp only [lower, lowerReturn, operandWords_over hoperands]
    rfl

theorem branchCondition_over (h : ctx.module.SameKind m x) :
    branchCondition (ctx.over m) values id x = branchCondition ctx values id x := by
  rw [branchCondition, branchCondition, scalar_over h]

theorem loopBound_over {bound : RangeBound} {serial : Bool} {body : BlockId}
    (h : ∀ x ∈ (Kind.rangeFor bound serial body).operands, ctx.module.SameKind m x) :
    loopBound (ctx.over m) values id bound = loopBound ctx values id bound := by
  cases bound with
  | value v => rw [loopBound, loopBound, scalar_over (h v mem_cons_self)]
  | field f => rfl

/-- **A walk over statements that see the same is the same walk**, also where it fails. -/
theorem walk_over {o : Outline} (h : ∀ s ∈ o.stmts, ctx.module.SameView m s) :
    walk (ctx.over m) st o = walk ctx st o := by
  induction o generalizing st with
  | nil => rfl
  | cons s first second rest ihFirst ihSecond ihRest =>
    have hs := h s mem_cons_self
    simp only [Outline.stmts, mem_cons, mem_append] at h
    have hfirst (st : State) := @ihFirst st fun t ht => h t (.inr (.inl ht))
    have hsecond (st : State) := @ihSecond st fun t ht => h t (.inr (.inr (.inl ht)))
    have hrest (st : State) := @ihRest st fun t ht => h t (.inr (.inr (.inr ht)))
    have hops := hs.operands
    rw [walk, walk]
    cases hkind : s.kind with
    | branch cond b₁ b₂ =>
      rw [hkind] at hops
      simp only [branchCondition_over (hops cond mem_cons_self), hfirst, hsecond, hrest]
    | whileTrue b => simp only [hfirst, hrest]
    | rangeFor bound serial b =>
      rw [hkind] at hops
      simp only [loopBound_over hops, hfirst, hrest]
    | _ => simp only [lower_over hs, hrest]

theorem gridBound_over {bound : RangeBound} {serial : Bool} {body : BlockId}
    (h : ∀ x ∈ (Kind.rangeFor bound serial body).operands, ctx.module.SameKind m x ∧
      ∀ ptr, ctx.module.kind? x = some (.temporaryLoad ptr) → ctx.module.SameKind m ptr) :
    gridBound (ctx.over m) root bound = gridBound ctx root bound := by
  cases bound with
  | field f => rfl
  | value v =>
    obtain ⟨hv, hptr⟩ := h v mem_cons_self
    rw [gridBound, gridBound, kindOf_over hv]
    obtain ⟨kind, hkind, -⟩ := hv
    rw [kindOf_eq_ok.2 hkind, ok_bind, ok_bind]
    cases kind with
    | temporaryLoad ptr =>
      simp only [kindOf_over (hptr ptr hkind)]
      rfl
    | const c => cases c <;> rfl
    | _ => rfl

end Codegen

/-- The same outline, placed in two modules, has the same statements around each of its own. -/
theorem Outline.Placed.enclosing_eq {m m' : Module} {walked walked' visible visible' around :
    List StmtId} {o : Outline} (h : o.Placed m walked visible around)
    (h' : o.Placed m' walked' visible' around) {t : Stmt} (ht : t ∈ o.stmts) :
    m.enclosing t.block = m'.enclosing t.block := by
  induction h generalizing walked' visible' with
  | nil => cases ht
  | cons _ _ _ inside _ _ _ ihFirst ihSecond ihRest =>
    obtain _ | ⟨_, _, _, inside', hfirst', hsecond', hrest'⟩ := h'
    simp only [stmts, mem_cons, mem_append] at ht
    rcases ht with rfl | ht | ht | ht
    · rw [inside, inside']
    · exact ihFirst hfirst' ht
    · exact ihSecond hsecond' ht
    · exact ihRest hrest' ht

namespace Module

/-! ## Modules that agree on an offload -/

/-- Two modules agree on an offload: on what is nested in it, and on the constants, the load and the
temporary that it reads from outside. -/
structure SameFor (m m' : Module) (o : Offload) : Prop where
  stmts : ∀ i, m.NestedIn o.stmts i → m'.stmts[i]? = m.stmts[i]?
  blocks : ∀ i s, m.NestedIn o.stmts i → m.stmts[i]? = some s →
    ∀ b ∈ s.kind.childBlocks, m'.blockStmts b = m.blockStmts b
  constants : ∀ i s, m.NestedIn o.stmts i → m.stmts[i]? = some s →
    ∀ x ∈ s.kind.operands, ∀ c, m.kind? x = some (.const c) → m'.kind? x = some (.const c)
  bound : ∀ i x, m.IsLoadedBound o i x → m'.kind? x = m.kind? x ∧
    ∀ ptr, m.kind? x = some (.temporaryLoad ptr) → m'.kind? ptr = m.kind? ptr

variable {m m' : Module} {o : Offload} {i x : StmtId} {s t : Stmt} {b : BlockId} {ids : List StmtId}

/-- The tree under statements depends on them and on the trees under their blocks. -/
theorem outlineOf_eq_of_same
    (h : ∀ i ∈ ids, ∃ s, m.stmts[i]? = some s ∧ m'.stmts[i]? = some s ∧
      ∀ b ∈ s.kind.childBlocks, m'.outline b = m.outline b) :
    m'.outlineOf m'.outline ids = m.outlineOf m.outline ids := by
  induction ids with
  | nil => rfl
  | cons i ids ih =>
    obtain ⟨⟨s, hs, hs', hkids⟩, hrest⟩ := forall_mem_cons.1 h
    have hbelow (k : Nat) : below m'.outline s k = below m.outline s k := by
      cases hc : s.kind.childBlocks[k]? with
      | none => simp [below, hc]
      | some c => simpa [below, hc] using hkids c (mem_of_getElem? hc)
    rw [outlineOf_cons hs, outlineOf_cons hs', hbelow, hbelow, ih hrest]

/-- What stands in a block of a nested statement is nested. -/
theorem NestedIn.child (hi : m.NestedIn o.stmts i) (h : m.Inv) (hs : m.stmts[i]? = some s)
    (hb : b ∈ s.kind.childBlocks) (hx : x ∈ m.blockStmts b) : m.NestedIn o.stmts x := by
  obtain ⟨t, ht, rfl⟩ := h.of_mem_blockStmts hx
  obtain ⟨top, htop, rfl | ⟨u, s', c, hu, hc, hs', henc⟩⟩ := hi
  · exact ⟨i, htop, .inr ⟨s, t, t.block, hs, hb, ht, .refl⟩⟩
  · rw [hs] at hs'
    cases hs'
    exact ⟨top, htop, .inr ⟨u, t, c, hu, hc, ht, .step (h.parent?_child hs hb) henc⟩⟩

namespace SameFor

variable (h : m.Inv) (h' : m'.Inv) (hsame : m.SameFor m' o)
include h h' hsame

/-- The blocks of an offload have the same outlines. -/
theorem outline_eq (b : BlockId) : ∀ {i : StmtId} {s : Stmt}, m.NestedIn o.stmts i →
    m.stmts[i]? = some s → b ∈ s.kind.childBlocks → m'.outline b = m.outline b := by
  refine h.block_induction (P := fun b => ∀ {i : StmtId} {s : Stmt}, m.NestedIn o.stmts i →
    m.stmts[i]? = some s → b ∈ s.kind.childBlocks → m'.outline b = m.outline b) (fun b ih => ?_) b
  intro i s hi hs hb
  rw [h.outline_eq, h'.outline_eq, hsame.blocks i s hi hs b hb]
  refine outlineOf_eq_of_same fun j hj => ?_
  have hnested : m.NestedIn o.stmts j := hi.child h hs hb hj
  obtain ⟨t, ht, rfl⟩ := h.of_mem_blockStmts hj
  refine ⟨t, ht, (hsame.stmts j hnested).trans ht, fun c hc => ?_⟩
  exact ih c (h.parent?_child ht hc) hnested ht hc

variable (ho : o ∈ m.groups)
include ho

/-- **An offload has the same outline in both modules.** -/
theorem outlineOf_eq : m'.outlineOf m'.outline o.stmts = m.outlineOf m.outline o.stmts := by
  refine outlineOf_eq_of_same fun i hi => ?_
  have hnested : m.NestedIn o.stmts i := ⟨i, hi, .inl rfl⟩
  obtain ⟨s, hs⟩ := h.found_of_mem_groups ho hi
  exact ⟨s, hs, (hsame.stmts i hnested).trans hs, fun b hb => hsame.outline_eq h h' b hnested hs hb⟩

omit h' in
theorem stmt_eq_ok (hi : m.NestedIn o.stmts i) :
    ∃ s, m.stmts[i]? = some s ∧ m.stmt i = .ok s ∧ m'.stmt i = .ok s := by
  obtain ⟨s, hs⟩ := h.exists_of_nestedIn ho hi
  exact ⟨s, hs, Module.stmt_eq_ok.2 hs, Module.stmt_eq_ok.2 ((hsame.stmts i hi).trans hs)⟩

variable (hself : m.SelfContained o)
include hself

omit h' in
/-- What a nested statement reads is of the same kind in both modules, wherever it comes from. -/
theorem sameKind (hi : m.NestedIn o.stmts i) (hs : m.stmts[i]? = some s)
    (hx : x ∈ s.kind.operands) : m.SameKind m' x := by
  rcases hself i hi s hs x hx with hnested | ⟨c, hc⟩ | hbound
  · obtain ⟨t, ht⟩ := h.exists_of_nestedIn ho hnested
    exact ⟨t.kind, by simp [kind?, ht], by simp [kind?, hsame.stmts x hnested, ht]⟩
  · exact ⟨_, hc, hsame.constants i s hi hs x hx c hc⟩
  · obtain ⟨hload', -⟩ := hsame.bound i x hbound
    obtain ⟨-, -, _, _, _, _, -, hload, -⟩ := hbound
    exact ⟨_, hload, hload'.trans hload⟩

omit h' in
/-- So is the temporary behind a load that it reads. -/
theorem sameKind_ptr {ptr : StmtId} (hi : m.NestedIn o.stmts i) (hs : m.stmts[i]? = some s)
    (hx : x ∈ s.kind.operands) (hptr : m.kind? x = some (.temporaryLoad ptr)) :
    m.SameKind m' ptr := by
  rcases hself i hi s hs x hx with hnested | ⟨c, hc⟩ | hbound
  · obtain ⟨t, ht⟩ := h.exists_of_nestedIn ho hnested
    have hkind : t.kind = .temporaryLoad ptr := by simpa [kind?, ht] using hptr
    exact hsame.sameKind h ho hself hnested ht (by simp [hkind, Kind.operands])
  · rw [hc] at hptr
    cases hptr
  · obtain ⟨-, htemp'⟩ := hsame.bound i x hbound
    obtain ⟨-, -, _, _, _, _, -, hload, htemp⟩ := hbound
    rw [hload] at hptr
    cases hptr
    exact ⟨_, htemp, (htemp' ptr hload).trans htemp⟩

/-- **Everything in an offload sees the same in both modules.** -/
theorem sameView (ho' : o ∈ m'.groups) (hi : m.NestedIn o.stmts i) (ht : m.stmts[i]? = some t) :
    m.SameView m' t := by
  refine ⟨fun x hx => hsame.sameKind h ho hself hi ht hx, ?_⟩
  have hplaced := h.placed_offload ho
  have hplaced' := h'.placed_offload ho'
  rw [hsame.outlineOf_eq h h' ho] at hplaced'
  obtain ⟨members, hmembers, -, hnested⟩ := h.nested_eq_ok ho
  obtain ⟨u, hu, rfl⟩ := mem_map.1 ((mem_nested hmembers).1 ((hnested i).2 hi))
  obtain rfl : t = u := Option.some.inj (ht.symm.trans (hplaced.found_of_mem hu))
  exact hplaced'.enclosing_eq hplaced hu

end SameFor

/-- What lies in a block of a nested statement, at any depth, is nested. -/
theorem NestedIn.of_mem_outline (hi : m.NestedIn o.stmts i) (h : m.Inv) (hs : m.stmts[i]? = some s)
    (hb : b ∈ s.kind.childBlocks) (ht : t ∈ (m.outline b).stmts) :
    m.NestedIn o.stmts t.id ∧ m.stmts[t.id]? = some t := by
  obtain ⟨j, hj⟩ := found_of_mem_outline ht
  obtain rfl := h.id_eq hj
  obtain ⟨t', ht', henc⟩ := h.mem_outline_ids b (mem_map_of_mem ht)
  obtain rfl : t = t' := Option.some.inj (hj.symm.trans ht')
  refine ⟨?_, hj⟩
  obtain ⟨top, htop, rfl | ⟨u, s', c, hu, hc, hs', henc'⟩⟩ := hi
  · exact ⟨i, htop, .inr ⟨s, t, b, hs, hb, hj, henc⟩⟩
  · rw [hs] at hs'
    cases hs'
    have hcb : m.Encloses c b := .step (h.parent?_child hs hb) henc'
    exact ⟨top, htop, .inr ⟨u, t, c, hu, hc, hj, hcb.trans henc⟩⟩

end Module

/-! ## Generating -/

namespace Codegen

variable {ctx : Context} {m : Module} {st : State} {o : Offload} {i : StmtId} {s : Stmt}
  {b : BlockId}

section Draft

variable (h : ctx.module.Inv) (h' : m.Inv) (ho : o ∈ ctx.module.groups) (ho' : o ∈ m.groups)
  (hself : ctx.module.SelfContained o) (hsame : ctx.module.SameFor m o)
include h h' ho ho' hself hsame

/-- The walk of a block of a nested statement, for any kind of offload. -/
theorem walk_block_over (hi : ctx.module.NestedIn o.stmts i) (hs : ctx.module.stmts[i]? = some s)
    (hb : b ∈ s.kind.childBlocks) (grid : Option StmtId) (st : State) :
    walk { ctx.over m with gridLoop := grid } st (m.outline b) =
      walk { ctx with gridLoop := grid } st (ctx.module.outline b) := by
  have hview (t : Stmt) (ht : t ∈ (ctx.module.outline b).stmts) : ctx.module.SameView m t := by
    obtain ⟨hnested, hfound⟩ := hi.of_mem_outline h hs hb ht
    exact hsame.sameView h h' ho hself ho' hnested hfound
  rw [hsame.outline_eq h h' b hi hs hb]
  exact @walk_over { ctx with gridLoop := grid } m st _ hview

theorem draftRangeFor_over (hi : ctx.module.NestedIn o.stmts i) :
    draftRangeFor (ctx.over m) st i = draftRangeFor ctx st i := by
  obtain ⟨s, hs, hstmt, hstmt'⟩ := hsame.stmt_eq_ok h ho hi
  have hover : (ctx.over m).module.stmt i = .ok s := hstmt'
  rw [draftRangeFor, draftRangeFor, hstmt, hover, orFault, ok_bind, ok_bind]
  cases hkind : s.kind with
  | rangeFor bound serial body =>
    have hbound := @gridBound_over ctx m i bound serial body fun x hx =>
      ⟨hsame.sameKind h ho hself hi hs (hkind ▸ hx), fun ptr hptr =>
        hsame.sameKind_ptr h ho hself hi hs (hkind ▸ hx) hptr⟩
    have hwalk (st : State) :=
      walk_block_over h h' ho ho' hself hsame hi hs (b := body)
        (by simp [hkind, Kind.childBlocks]) (some i) st
    dsimp only [Context.over] at hbound hwalk ⊢
    simp only [hbound, hwalk]
  | _ => rfl

theorem draftGraphics_over (hi : ctx.module.NestedIn o.stmts i) :
    draftGraphics (ctx.over m) st i = draftGraphics ctx st i := by
  obtain ⟨s, hs, hstmt, hstmt'⟩ := hsame.stmt_eq_ok h ho hi
  have hover : (ctx.over m).module.stmt i = .ok s := hstmt'
  rw [draftGraphics, draftGraphics, hstmt, hover, orFault, ok_bind, ok_bind]
  have hwalk (body : BlockId) (hbody : body ∈ s.kind.childBlocks) (st : State) :=
    walk_block_over h h' ho ho' hself hsame hi hs hbody ctx.gridLoop st
  dsimp only [Context.over] at hwalk ⊢
  split
  case h_1 body hstage hkind => simp only [hwalk body (by simp [hkind, Kind.childBlocks])]
  case h_2 body hstage hkind => simp only [hwalk body (by simp [hkind, Kind.childBlocks])]
  case h_3 => rfl

/-- The offload is walked as before. -/
theorem walkTop_over : walkTop (ctx.over m) st o.stmts = walkTop ctx st o.stmts := by
  have hfound (i : StmtId) (hi : i ∈ o.stmts) : ∃ s, (ctx.over m).module.stmts[i]? = some s :=
    h'.found_of_mem_groups ho' hi
  have hview (t : Stmt) (ht : t ∈ (ctx.module.outlineOf ctx.module.outline o.stmts).stmts) :
      ctx.module.SameView m t :=
    hsame.sameView h h' ho hself ho' (h.nestedIn_of_mem_outlineOf ho ht)
      ((h.placed_offload ho).found_of_mem ht)
  have houtline : (ctx.over m).module.outlineOf (ctx.over m).module.outline o.stmts =
      ctx.module.outlineOf ctx.module.outline o.stmts := hsame.outlineOf_eq h h' ho
  rw [walkTop_eq_walk hfound, walkTop_eq_walk fun i => h.found_of_mem_groups ho, houtline,
    walk_over hview]

/-- The draft of an offload is the same over a module that agrees on it. -/
theorem draft_over : draft (ctx.over m) st o = draft ctx st o := by
  have hroot (root : StmtId) (hroot : o.root? = some root) : ctx.module.NestedIn o.stmts root := by
    refine ⟨root, ?_, .inl rfl⟩
    rw [Offload.root?] at hroot
    split at hroot
    · cases hroot
    · exact mem_of_mem_head? hroot
  rw [draft, draft]
  split
  · exact draftRangeFor_over h h' ho ho' hself hsame (hroot _ ‹_›)
  · exact draftGraphics_over h h' ho ho' hself hsame (hroot _ ‹_›)
  · exact draftGraphics_over h h' ho ho' hself hsame (hroot _ ‹_›)
  · rw [walkTop_over h h' ho ho' hself hsame]

end Draft

end Codegen

/-! ## Two modules, one offload -/

/-- Generating an offload gives the same over a module that agrees on it. -/
theorem generate_eq_of_sameFor {m m' : Module} {o : Offload} (h : m.Inv) (h' : m'.Inv)
    (ho : o ∈ m.groups) (ho' : o ∈ m'.groups) (hself : m.SelfContained o) (hsame : m.SameFor m' o)
    (signature : Signature) (config : Config) (previous : Option Task) :
    generate m o signature config previous = generate m' o signature config previous := by
  have hdraft (st : Codegen.State) (varyings : List StageMember) :=
    @Codegen.draft_over ⟨m, config, signature, o.kind.stage, none, varyings⟩ m' st o h h' ho ho'
      hself hsame
  dsimp only [Codegen.Context.over] at hdraft
  simp only [generate, Codegen.program, hdraft]
  rfl

namespace Session

/-- **Offloads are generated independently.**  An offload that is in the partitions of two finished
modules, which agree on what is nested in it and on the constants and the loaded bound that it reads
from outside, is generated to the same task or refused with the same error, whatever else the two
modules hold. -/
theorem generate_independent {actions actions' : List Action} {s s' : Session} {m m' : Module}
    {os os' : List Offload} {o : Offload}
    (hrun : Session.run {} actions = .ok s) (hfinish : s.builder.finish = .ok m)
    (hrun' : Session.run {} actions' = .ok s') (hfinish' : s'.builder.finish = .ok m')
    (hos : m.partition = .ok os) (ho : o ∈ os) (hos' : m'.partition = .ok os') (ho' : o ∈ os')
    (hsame : m.SameFor m' o) (signature : Signature) (config : Config) (previous : Option Task) :
    generate m o signature config previous = generate m' o signature config previous := by
  obtain ⟨hinv, -⟩ := inv_of_finish hrun hfinish
  obtain ⟨hinv', -⟩ := inv_of_finish hrun' hfinish'
  obtain ⟨rfl, hself⟩ := hinv.partition_eq_ok.1 hos
  obtain ⟨rfl, -⟩ := hinv'.partition_eq_ok.1 hos'
  exact generate_eq_of_sameFor hinv hinv' ho ho' (hself o ho) hsame signature config previous

/-- A parallel loop with a loaded bound, after the statement `other` and before `rest`. -/
def bounded (other : Op) (rest : List Action) : List Action :=
  [.create (.const (.i32 3)), .create (.temporary .i32 0), .create (.temporaryLoad 1),
    .create other, .create (.rangeFor (.value 2) false), .openGuard .rangeFor 4,
    .create (.loopIndex 4), .create (.binary .add 5 0), .closeGuard 0] ++ rest

/-- The loop is the same beside other statements. -/
theorem generate_independent_bounded : ∃ s s' m m' task,
    Session.run {} (bounded (.argLoad .f32 0) []) = .ok s ∧ s.builder.finish = .ok m ∧
      Session.run {} (bounded (.rand .f32) [.create (.unary .neg 0)]) = .ok s' ∧
      s'.builder.finish = .ok m' ∧ m.kind? 3 ≠ m'.kind? 3 ∧ m.stmts.size < m'.stmts.size ∧
      generate m ⟨.rangeFor, [4]⟩ ⟨4, 0⟩ {} none = .ok task ∧
      generate m' ⟨.rangeFor, [4]⟩ ⟨4, 0⟩ {} none = .ok task := by
  have hmodules : ∃ s s' m m' os os' task,
      (Session.run {} (bounded (.argLoad .f32 0) []) = .ok s ∧ s.builder.finish = .ok m ∧
        Session.run {} (bounded (.rand .f32) [.create (.unary .neg 0)]) = .ok s' ∧
        s'.builder.finish = .ok m') ∧ m.kind? 3 ≠ m'.kind? 3 ∧ m.stmts.size < m'.stmts.size ∧
      (m.partition = .ok os ∧ ⟨.rangeFor, [4]⟩ ∈ os ∧ m'.partition = .ok os' ∧
        ⟨.rangeFor, [4]⟩ ∈ os') ∧
      generate m ⟨.rangeFor, [4]⟩ ⟨4, 0⟩ {} none = .ok task ∧
      m.nested [4] = .ok [4, 5, 6] ∧
      (∀ i ∈ [4, 5, 6], m'.stmts[i]? = m.stmts[i]?) ∧
      (∀ i ∈ [4, 5, 6], ∀ s ∈ m.stmts[i]?, ∀ b ∈ s.kind.childBlocks,
        m'.blockStmts b = m.blockStmts b) ∧
      (∀ i ∈ [4, 5, 6], ∀ s ∈ m.stmts[i]?, ∀ x ∈ s.kind.operands, m'.kind? x = m.kind? x) ∧
      m.kind? 4 = some (.rangeFor (.value 2) false 1) ∧ m.kind? 2 = some (.temporaryLoad 1) ∧
      ∀ x ∈ [1, 2], m'.kind? x = m.kind? x :=
    ⟨_, _, _, _, _, _, _, ⟨rfl, rfl, rfl, rfl⟩, by decide, by decide,
      ⟨rfl, by decide, rfl, by decide⟩, rfl, rfl, by decide, by decide, by decide, rfl, rfl,
      by decide⟩
  obtain ⟨s, s', m, m', os, os', task, ⟨hrun, hfinish, hrun', hfinish'⟩, hother, hsize,
    ⟨hos, ho, hos', ho'⟩, htask, hnested, hstmts, hblocks, hreads, hloop, hload, houter⟩ := hmodules
  obtain ⟨hinv, -⟩ := inv_of_finish hrun hfinish
  obtain ⟨members, hmembers, -, hiff⟩ := hinv.nested_eq_ok (Module.mem_groups_of_partition hos ho)
  obtain rfl : members = [4, 5, 6] := Except.ok.inj (hmembers.symm.trans hnested)
  have hsame : m.SameFor m' ⟨.rangeFor, [4]⟩ :=
    { stmts := fun i hi => hstmts i ((hiff i).2 hi)
      blocks := fun i s hi hs => hblocks i ((hiff i).2 hi) s hs
      constants := fun i s hi hs x hx c hc => (hreads i ((hiff i).2 hi) s hs x hx).trans hc
      bound := by
        rintro i x ⟨-, hi, body, ptr, ty, offset, hbound, -, -⟩
        cases hi
        rw [hloop] at hbound
        cases hbound
        refine ⟨houter 2 (by decide), fun ptr hptr => ?_⟩
        rw [hload] at hptr
        cases hptr
        exact houter 1 (by decide) }
  have heq := generate_independent hrun hfinish hrun' hfinish' hos ho hos' ho' hsame ⟨4, 0⟩ {} none
  exact ⟨s, s', m, m', task, hrun, hfinish, hrun', hfinish', hother, hsize, htask, heq ▸ htask⟩

end Session

end WgslKernel
