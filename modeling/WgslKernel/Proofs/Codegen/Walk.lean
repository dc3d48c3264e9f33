import WgslKernel.Codegen.Walk
import WgslKernel.Proofs.Module.Outline

/-!
# What a walk did

`Walks` is the trace of a walk that succeeded, with one constructor for each way `walk` treats a
statement.  What is proved about generated code is proved by induction on it.
-/

namespace WgslKernel

open List

namespace Code

@[simp] theorem done_append (c : Code) : (done ++ c : Code) = c := rfl

@[simp] theorem line_append (l : Line) (rest c : Code) :
    (line l rest ++ c : Code) = line l (rest ++ c) := rfl

@[simp] theorem branch_append (e : Expr) (yes rest c : Code) :
    (branch e yes rest ++ c : Code) = branch e yes (rest ++ c) := rfl

@[simp] theorem branchElse_append (e : Expr) (yes no rest c : Code) :
    (branchElse e yes no rest ++ c : Code) = branchElse e yes no (rest ++ c) := rfl

@[simp] theorem loop_append (body rest c : Code) :
    (loop body rest ++ c : Code) = loop body (rest ++ c) := rfl

@[simp] theorem countLoop_append (h : LoopHeader) (body rest c : Code) :
    (countLoop h body rest ++ c : Code) = countLoop h body (rest ++ c) := rfl

@[simp] theorem append_done (c : Code) : (c ++ done : Code) = c := by
  induction c <;> simp_all

theorem append_assoc (a b c : Code) : (a ++ b ++ c : Code) = a ++ (b ++ c) := by
  induction a <;> simp_all

end Code

namespace Codegen

variable {ctx : Context} {st st' : State}

/-! ## Traces -/

/-- The code of a branch: the other side is left out when it is empty. -/
def branchCode (c : Expr) (second : Outline) (yes no tail : Code) : Code :=
  if second.isEmpty then .branch c yes tail else .branchElse c yes no tail

/-- The walk of an outline, from one state to another, and the code it emits. -/
inductive Walks (ctx : Context) : State → Outline → State → Code → Prop where
  | nil {st : State} : Walks ctx st .nil st .done
  | branch {st st₁ st₂ st₃ : State} {s : Stmt} {first second rest : Outline} {cond : StmtId}
    {b₁ b₂ : BlockId} {c : Expr} {yes no tail : Code}
    (hkind : s.kind = .branch cond b₁ b₂)
    (hcond : branchCondition ctx st.values s.id cond = .ok c)
    (hfirst : Walks ctx st first st₁ yes)
    (hsecond : Walks ctx st₁ second st₂ no)
    (hrest : Walks ctx st₂ rest st₃ tail) :
    Walks ctx st (.cons s first second rest) st₃ (branchCode c second yes no tail)
  | loop {st st₁ st₂ : State} {s : Stmt} {first second rest : Outline} {b : BlockId}
    {body tail : Code}
    (hkind : s.kind = .whileTrue b)
    (hfirst : Walks ctx st first st₁ body)
    (hrest : Walks ctx st₁ rest st₂ tail) :
    Walks ctx st (.cons s first second rest) st₂ (.loop body tail)
  | count {st st₁ st₂ : State} {s : Stmt} {first second rest : Outline} {bound : RangeBound}
    {serial : Bool} {b : BlockId} {stop : Expr} {body tail : Code}
    (hkind : s.kind = .rangeFor bound serial b)
    (hstop : loopBound ctx st.values s.id bound = .ok stop)
    (hfirst : Walks ctx st first st₁ body)
    (hrest : Walks ctx st₁ rest st₂ tail) :
    Walks ctx st (.cons s first second rest) st₂ (.countLoop (serialLoop s.id stop) body tail)
  | leaf {st st₁ st₂ : State} {s : Stmt} {first second rest : Outline} {l : Lowering}
    {tail : Code}
    (hkind : s.kind.childBlocks = [])
    (hlower : lower ctx st.values s = .ok l)
    (happly : st.apply s.id l = .ok st₁)
    (hrest : Walks ctx st₁ rest st₂ tail) :
    Walks ctx st (.cons s first second rest) st₂ (l.code ++ tail)

/-- A statement that is lowered by itself owns no blocks. -/
theorem childBlocks_of_lower {values : Values} {s : Stmt} {l : Lowering}
    (h : lower ctx values s = .ok l) (hb : ∀ c b₁ b₂, s.kind ≠ .branch c b₁ b₂)
    (hw : ∀ b, s.kind ≠ .whileTrue b) (hf : ∀ n serial b, s.kind ≠ .rangeFor n serial b) :
    s.kind.childBlocks = [] := by
  cases hk : s.kind with
  | branch cond b₁ b₂ => exact absurd hk (hb cond b₁ b₂)
  | whileTrue b => exact absurd hk (hw b)
  | rangeFor n serial b => exact absurd hk (hf n serial b)
  | vertexFor | fragmentFor => simp [lower, hk] at h
  | _ => rfl

/-- A walk that succeeded has a trace. -/
theorem walks_of_walk {o : Outline} {code : Code} (h : walk ctx st o = .ok (st', code)) :
    Walks ctx st o st' code := by
  induction o generalizing st st' code with
  | nil =>
    cases h
    exact .nil
  | cons s first second rest ihFirst ihSecond ihRest =>
    rw [walk] at h
    split at h
    · rename_i cond b₁ b₂ hkind
      obtain ⟨c, hcond, h⟩ := bind_eq_ok.1 h
      obtain ⟨⟨st₁, yes⟩, hfirst, h⟩ := bind_eq_ok.1 h
      obtain ⟨⟨st₂, no⟩, hsecond, h⟩ := bind_eq_ok.1 h
      obtain ⟨⟨st₃, tail⟩, hrest, h⟩ := bind_eq_ok.1 h
      have hcode : (.ok (st₃, branchCode c second yes no tail) : Except Halt (State × Code)) =
          .ok (st', code) := by
        rw [← h, branchCode]
        cases second.isEmpty <;> rfl
      cases hcode
      exact .branch hkind hcond (ihFirst hfirst) (ihSecond hsecond) (ihRest hrest)
    · rename_i b hkind
      obtain ⟨⟨st₁, body⟩, hfirst, h⟩ := bind_eq_ok.1 h
      obtain ⟨⟨st₂, tail⟩, hrest, h⟩ := bind_eq_ok.1 h
      cases h
      exact .loop hkind (ihFirst hfirst) (ihRest hrest)
    · rename_i bound serial b hkind
      obtain ⟨stop, hstop, h⟩ := bind_eq_ok.1 h
      obtain ⟨⟨st₁, body⟩, hfirst, h⟩ := bind_eq_ok.1 h
      obtain ⟨⟨st₂, tail⟩, hrest, h⟩ := bind_eq_ok.1 h
      cases h
      exact .count hkind hstop (ihFirst hfirst) (ihRest hrest)
    · rename_i hb hw hf
      obtain ⟨l, hlower, h⟩ := bind_eq_ok.1 h
      obtain ⟨st₁, happly, h⟩ := bind_eq_ok.1 h
      obtain ⟨⟨st₂, tail⟩, hrest, h⟩ := bind_eq_ok.1 h
      cases h
      exact .leaf (childBlocks_of_lower hlower hb hw hf) hlower happly (ihRest hrest)

/-- An empty block has no code. -/
theorem Walks.done_of_isEmpty {o : Outline} {code : Code} (h : Walks ctx st o st' code)
    (ho : o.isEmpty = true) : code = .done := by
  cases h with
  | nil => rfl
  | _ => cases ho

/-- A walk goes on where another one of a single statement stopped. -/
theorem Walks.append {st₁ st₂ : State} {s : Stmt} {first second rest : Outline} {c d : Code}
    (h : Walks ctx st (.cons s first second .nil) st₁ c) (hrest : Walks ctx st₁ rest st₂ d) :
    Walks ctx st (.cons s first second rest) st₂ (c ++ d) := by
  cases h with
  | branch hkind hcond hfirst hsecond hnil =>
    cases hnil
    have := Walks.branch hkind hcond hfirst hsecond hrest
    simp only [branchCode] at this ⊢
    split <;> simp_all
  | loop hkind hfirst hnil =>
    cases hnil
    exact .loop hkind hfirst hrest
  | count hkind hstop hfirst hnil =>
    cases hnil
    exact .count hkind hstop hfirst hrest
  | leaf hkind hlower happly hnil =>
    cases hnil
    rw [Code.append_done]
    exact .leaf hkind hlower happly hrest

/-- Walking statements one by one is walking the outline they make up. -/
theorem walks_of_walkTop {ids : List StmtId} {code : Code}
    (h : walkTop ctx st ids = .ok (st', code)) :
    Walks ctx st (ctx.module.outlineOf ctx.module.outline ids) st' code := by
  induction ids generalizing st st' code with
  | nil =>
    cases h
    exact .nil
  | cons i ids ih =>
    obtain ⟨o, ho, h⟩ := bind_eq_ok.1 h
    obtain ⟨⟨st₁, c⟩, hwalk, h⟩ := bind_eq_ok.1 h
    obtain ⟨⟨st₂, tail⟩, htail, h⟩ := bind_eq_ok.1 h
    cases h
    obtain ⟨s, hs, ho⟩ := bind_eq_ok.1 (orFault_eq_ok.1 ho)
    cases ho
    rw [Module.stmt_eq_ok] at hs
    rw [Module.outlineOf_cons hs] at hwalk ⊢
    exact (walks_of_walk hwalk).append (ih htail)

/-! ## The table of values -/

/-- What an operand is read as: its entry in the table or, if it has none, a constant. -/
theorem value_eq_ok {values : Values} {user x : StmtId} {v : Value} :
    ctx.value values user x = .ok v ↔ values.lookup x = some v ∨
      values.lookup x = none ∧ ∃ c, ctx.module.kind? x = some (.const c) ∧ v = .ofConst c := by
  unfold Context.value
  split
  · rename_i w hw
    simp [hw]
  · rename_i hnone
    simp only [hnone, bind_eq_ok, Context.kindOf, orFault_eq_ok, Module.stmt_eq_ok]
    constructor
    · rintro ⟨kind, ⟨s, hs, hkind⟩, h⟩
      cases hkind
      split at h
      · rename_i c hc
        cases h
        exact .inr ⟨trivial, c, by rw [Module.kind?, hs, Option.map_some, hc], rfl⟩
      · simp at h
    · rintro (h | ⟨-, c, hc, rfl⟩)
      · cases h
      · obtain ⟨s, hs, hsc⟩ := Option.map_eq_some_iff.1 hc
        refine ⟨.const c, ⟨s, hs, by rw [hsc]⟩, rfl⟩

theorem scalar_eq_ok {values : Values} {user x : StmtId} {v : Value} :
    ctx.scalar values user x = .ok v ↔
      ctx.value values user x = .ok v ∧ v.type.isScalar = true := by
  rw [Context.scalar, bind_eq_ok]
  constructor
  · rintro ⟨u, hu, h⟩
    split at h
    · cases h
      exact ⟨hu, by assumption⟩
    · simp at h
  · rintro ⟨hv, hscalar⟩
    exact ⟨v, hv, if_pos hscalar⟩

theorem kindOf_eq_ok {x : StmtId} {kind : Kind} :
    ctx.kindOf x = .ok kind ↔ ctx.module.kind? x = some kind := by
  rw [Context.kindOf, bind_eq_ok, Module.kind?, Option.map_eq_some_iff]
  constructor
  · rintro ⟨s, hs, hk⟩
    cases hk
    exact ⟨s, Module.stmt_eq_ok.1 (orFault_eq_ok.1 hs), rfl⟩
  · rintro ⟨s, hs, rfl⟩
    exact ⟨s, orFault_eq_ok.2 (Module.stmt_eq_ok.2 hs), rfl⟩

/-- A statement that is no range-for does not play one. -/
theorem not_plays_rangeFor {s : Stmt} (found : ctx.module.stmts[s.id]? = some s)
    (hkind : ∀ bound serial body, s.kind ≠ .rangeFor bound serial body) :
    ¬ ctx.module.Plays s.id .rangeFor := by
  intro h
  obtain ⟨_, _, _, h⟩ := h.rangeFor
  rw [Module.kind?, found] at h
  exact hkind _ _ _ (Option.some.inj h)

/-- The bound of a loop inside an offload is the size of a field, or a scalar integer. -/
theorem loopBound_eq_ok {values : Values} {id : StmtId} {bound : RangeBound} {stop : Expr}
    (h : loopBound ctx values id bound = .ok stop) :
    (∃ f n, bound = .field f ∧ fieldElements id f = .ok n ∧ stop = .int n) ∨
      ∃ x v, bound = .value x ∧ ctx.value values id x = .ok v ∧ v.type = .ofPrim .i32 ∧
        stop = v.expr := by
  cases bound with
  | field f =>
    obtain ⟨n, hn, h⟩ := bind_eq_ok.1 h
    cases h
    exact .inl ⟨f, n, rfl, hn, rfl⟩
  | value x =>
    obtain ⟨v, hv, h⟩ := bind_eq_ok.1 h
    obtain ⟨hv, hscalar⟩ := scalar_eq_ok.1 hv
    split at h
    · rename_i hprim
      cases h
      refine .inr ⟨x, v, rfl, hv, ?_, rfl⟩
      rw [ValueType.ofPrim, ← hprim, ← beq_iff_eq.1 hscalar]
    · simp at h

/-- A resource that has not been declared yet is declared at some slot. -/
theorem use_cases {u : Use} (h : st.use u = .ok st') :
    (st.globals.any fun g => g.binding.resource = u.resource) = true ∧ st' = st ∨
      (st.globals.any fun g => g.binding.resource = u.resource) = false ∧ ∃ bindings slot,
        st' = { st with
          bindings, globals := st.globals ++ [⟨⟨u.resource, slot⟩, u.declaration⟩] } := by
  unfold State.use at h
  split at h
  · rename_i hany
    exact .inl ⟨hany, (Except.ok.inj h).symm⟩
  · rename_i hany
    refine .inr ⟨Bool.not_eq_true _ ▸ hany, ?_⟩
    split at h
    · exact ⟨_, _, (Except.ok.inj h).symm⟩
    · obtain ⟨slot, -, h⟩ := bind_eq_ok.1 h
      obtain ⟨bindings, -, h⟩ := bind_eq_ok.1 h
      exact ⟨bindings, slot, (Except.ok.inj h).symm⟩

/-- Declaring resources touches nothing but the declarations. -/
theorem uses_eq {uses : List Use} (h : uses.foldlM State.use st = .ok st') :
    ∃ bindings globals, st' = { st with bindings, globals } := by
  refine foldlM_keeps (P := fun st' => ∃ bindings globals, st' = { st with bindings, globals }) h
    ?_ ⟨_, _, rfl⟩
  rintro u - _ st₂ hu ⟨bindings, globals, rfl⟩
  obtain ⟨-, rfl⟩ | ⟨-, bindings', slot, rfl⟩ := use_cases hu
  · exact ⟨_, _, rfl⟩
  · exact ⟨_, _, rfl⟩

/-- What taking in a contribution does to a state. -/
theorem apply_eq_ok {id : StmtId} {l : Lowering} (h : st.apply id l = .ok st') :
    ∃ bindings globals inputs outputs,
      l.uses.foldlM State.use st = .ok { st with bindings, globals } ∧
      l.inputs.foldlM (State.addMember id) st.inputs = .ok inputs ∧
      l.outputs.foldlM (State.addMember id) st.outputs = .ok outputs ∧
      st' = { bindings, globals, inputs, outputs, random := st.random || l.random,
              values := l.value.elim st.values fun v => (id, v) :: st.values } := by
  obtain ⟨st₁, huses, h⟩ := bind_eq_ok.1 h
  obtain ⟨inputs, hinputs, h⟩ := bind_eq_ok.1 h
  obtain ⟨outputs, houtputs, h⟩ := bind_eq_ok.1 h
  rw [orFault_eq_ok] at huses
  obtain ⟨bindings, globals, rfl⟩ := uses_eq huses
  cases h
  exact ⟨bindings, globals, inputs, outputs, huses, hinputs, houtputs, by cases l.value <;> rfl⟩

/-- A statement adds its own value only. -/
theorem apply_values {id : StmtId} {l : Lowering} (h : st.apply id l = .ok st') :
    st'.values = l.value.elim st.values (fun v => (id, v) :: st.values) ∧
      st'.random = (st.random || l.random) := by
  obtain ⟨_, _, _, _, -, -, -, rfl⟩ := apply_eq_ok h
  exact ⟨rfl, rfl⟩

theorem apply_lookup {id x : StmtId} {l : Lowering} (h : st.apply id l = .ok st') (hx : x ≠ id) :
    st'.values.lookup x = st.values.lookup x := by
  rw [(apply_values h).1]
  cases l.value with
  | none => rfl
  | some v =>
    have hbeq : (x == id) = false := by simpa using hx
    simp [lookup_cons, hbeq]

/-- **A walk only adds entries for the statements it walks.** -/
theorem Walks.lookup_eq {o : Outline} {code : Code} (h : Walks ctx st o st' code) {x : StmtId}
    (hx : x ∉ o.ids) : st'.values.lookup x = st.values.lookup x := by
  induction h with
  | nil => rfl
  | branch _ _ _ _ _ ihFirst ihSecond ihRest =>
    simp only [Outline.ids_cons, mem_cons, mem_append, not_or] at hx
    rw [ihRest hx.2.2.2, ihSecond hx.2.2.1, ihFirst hx.2.1]
  | loop _ _ _ ihFirst ihRest | count _ _ _ _ ihFirst ihRest =>
    simp only [Outline.ids_cons, mem_cons, mem_append, not_or] at hx
    rw [ihRest hx.2.2.2, ihFirst hx.2.1]
  | leaf _ _ happly _ ihRest =>
    simp only [Outline.ids_cons, mem_cons, mem_append, not_or] at hx
    rw [ihRest hx.2.2.2, apply_lookup happly hx.1]

end Codegen

end WgslKernel
