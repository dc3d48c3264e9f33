import WgslKernel.Proofs.Simulation.Standing

/-!
# Statements

Each statement of an integer kernel that owns no blocks does in the shader what it does in the
kernel.
-/

namespace WgslKernel.Codegen

variable {ctx : Context} {values : Values} {s : Stmt} {walked visible around : List StmtId}
  {iter : StmtId → Int32} {inv : Invocation} {fuel : Nat} {f : Frame} {store : Store} {x : StmtId}
  {v : Value}

/-! ## Lines -/

theorem shaderType_i32 {id : StmtId} {type : ShaderType}
    (h : shaderType id (.ofPrim .i32) = .ok type) : type = ⟨.i32, 1⟩ := by
  cases h
  rfl

/-- A name bound to an integer. -/
theorem exec_letBind {n : Ident} {e : Expr} {w : Int32} (h : e.eval inv store = .done (.int w)) :
    (Code.line (.letBind n (some ⟨.i32, 1⟩) e) .done).exec inv fuel store =
      .done (.next, store.declare n false (.int w)) := by
  simp [Code.exec, Line.exec, h, Datum.typed]

/-- A word of a buffer. -/
theorem eval_word {r : Resource} {e : Expr} {d : Datum} {i : Int}
    (he : e.eval inv store = .done d) (hd : d.index = .done i) :
    (Expr.word r e).eval inv store = store.memory.read r i >>= fun w => .done (.int w) := by
  simp [Expr.word, Expr.eval, Expr.buffer?, he, hd]

theorem exec_letBind_word {n : Ident} {r : Resource} {e : Expr} {d : Datum} {i : Int}
    (he : e.eval inv store = .done d) (hd : d.index = .done i) :
    (Code.line (.letBind n (some ⟨.i32, 1⟩) (.word r e)) .done).exec inv fuel store =
      store.memory.read r i >>= fun w => .done (.next, store.declare n false (.int w)) := by
  simp only [Code.exec, Line.exec, eval_word he hd]
  cases store.memory.read r i <;> rfl

theorem line_assign_word {r : Resource} {e value : Expr} {d : Datum} {i : Int} {w : Int32}
    (he : e.eval inv store = .done d) (hd : d.index = .done i)
    (hv : value.eval inv store = .done (.int w)) :
    (Line.assign (.word r e) value).exec inv store =
      store.memory.write r i w >>= fun memory => .done (.next, { store with memory }) := by
  simp only [Line.exec, hv, Store.put, Expr.word, Expr.buffer?, Run.done_bind, he, hd]
  cases store.memory.write r i w <;> rfl

theorem exec_assign_word {r : Resource} {e value : Expr} {d : Datum} {i : Int} {w : Int32}
    (he : e.eval inv store = .done d) (hd : d.index = .done i)
    (hv : value.eval inv store = .done (.int w)) :
    (Code.line (.assign (.word r e) value) .done).exec inv fuel store =
      store.memory.write r i w >>= fun memory => .done (.next, { store with memory }) := by
  rw [Code.exec, line_assign_word he hd hv]
  cases store.memory.write r i w <;> rfl

/-! ## Buffers -/

/-- Reading at an address is reading at its word, as long as the address fits one. -/
theorem read_simulates (mem : Memory) (r : Resource) {i j : Int}
    (h : 0 ≤ i → i < indexLimit → j = i) : Simulates Eq (mem.read r i) (mem.read r j) := by
  by_cases hi : 0 ≤ i ∧ i < indexLimit
  · rw [h hi.1 hi.2]
    unfold Memory.read
    rw [if_pos hi]
    split
    · exact rfl
    · trivial
  · rw [Memory.read, if_neg hi]
    trivial

theorem write_simulates (mem : Memory) (r : Resource) {i j : Int} (w : Int32)
    (h : 0 ≤ i → i < indexLimit → j = i) : Simulates Eq (mem.write r i w) (mem.write r j w) := by
  by_cases hi : 0 ≤ i ∧ i < indexLimit
  · rw [h hi.1 hi.2]
    unfold Memory.write
    split
    · exact rfl
    · trivial
  · rw [Memory.write, if_neg fun hin => hi ⟨hin.1, hin.2.1⟩]
    trivial

theorem toInt_ofInt {i : Int} (h₀ : 0 ≤ i) (h₁ : i < indexLimit) : (Int32.ofInt i).toInt = i :=
  Int32.toInt_ofInt_of_le (by omega) h₁

/-- The innermost loop around a block is one of the statements around it. -/
theorem exists_loop {m : Module} {b : BlockId} {kind : Kind} (h : m.loopAround b = some kind) :
    ∃ x ∈ m.enclosing b, ∃ kind, m.kind? x = some kind ∧ kind.isLoop = true := by
  obtain ⟨x, hx, hkind⟩ := List.mem_filterMap.1 (List.mem_of_find?_eq_some h)
  exact ⟨x, hx, kind, hkind, List.find?_some h⟩

namespace Standing

theorem isInteger (h : Standing ctx values s walked visible around)
    (hkind : s.kind.isAddress = false) (hconst : ∀ c, s.kind ≠ .const c) :
    ctx.module.isInteger s.id = true := by
  simp only [Module.isInteger, Module.isNumber, h.kind?, Option.any_some, hkind, Bool.not_false,
    Bool.true_and]
  split
  · rename_i bits heq
    exact absurd (Option.some.inj heq) (hconst _)
  · rfl

variable (h : Standing ctx values s walked visible around)
  (hag : Agrees ctx values visible around iter f.env store.locals)
  (hmem : f.memory = store.memory)
include h hag hmem

/-! ## Constants, indices and operators -/

attribute [local simp] Kind.perform

/-- A statement that binds its value to its temporary. -/
theorem follows_word {kind : Kind} {st : Store} (hst : st.locals = store.locals ∨
      ∃ slot : Slot, slot.name.owner? = some s.id ∧ st.locals = slot :: store.locals)
    (hstmem : st.memory = store.memory) (hkind : s.kind = kind) (haddress : kind.isAddress = false)
    (hconst : ∀ c, kind ≠ .const c) (w : Int32) :
    Follows ctx ((s.id, ⟨.ident (.temp s.id), .ofPrim .i32⟩) :: values) (s.id :: visible) around
      [s.id] iter f store (.next, f.set s.id (.word w))
      (.next, st.declare (.temp s.id) false (.int w)) := by
  subst hkind
  exact h.follows_declare hag (hmem.trans hstmem.symm) hst (h.isInteger haddress hconst) hconst
    ⟨rfl, .temp (Locals.get?_cons_self ⟨.temp s.id, false, .int w⟩ st.locals)⟩

theorem simulates_const {c : Const} (hkind : s.kind = .const c) :
    Simulates (Follows ctx ((s.id, .ofConst c) :: values) (s.id :: visible) around [s.id] iter
      f store) (s.kind.perform s.id f) (Code.done.exec inv fuel store) := by
  have hint := h.integral
  rw [hkind] at hint ⊢
  cases c with
  | f32 bits => cases hint
  | i32 w =>
    refine h.follows_standIn hag hmem (isInteger_of_const (w := w) ?_) (fun c hc => ?_)
      ⟨rfl, .const (.i32 w)⟩
    · rw [h.kind?, hkind]
    · rw [hkind] at hc
      cases hc
      rfl

theorem simulates_loopIndex {loop : StmtId} (hkind : s.kind = .loopIndex loop)
    (hin : loop ∈ ctx.module.enclosing s.block) :
    Simulates (Follows ctx ((s.id, ⟨.ident (.counter loop), .ofPrim .i32⟩) :: values)
      (s.id :: visible) around [s.id] iter f store) (s.kind.perform s.id f)
      (Code.done.exec inv fuel store) := by
  have hplays : ctx.module.Plays loop .rangeFor := by
    have hadmits := h.admits
    rw [hkind] at hadmits
    exact hadmits.1
  obtain ⟨henv, hget⟩ := hag.counter (h.inside ▸ hin) hplays
  have hword : f.word loop = .done (iter loop) := by
    simp [Frame.word, Frame.item, henv, Item.asWord]
  have hconst : ∀ c, s.kind ≠ .const c := fun c hc => by simp [hkind] at hc
  have hint := h.isInteger (by rw [hkind]; rfl) hconst
  rw [hkind, Kind.perform, hword]
  exact h.follows_standIn hag hmem hint (fun c hc => absurd hc (hconst c)) ⟨rfl, .counter hget⟩

/-- A unary operator is followed. -/
theorem simulates_unary {op : UnaryOp} {t : ValueType} {type : ShaderType} {e : Expr}
    (hkind : s.kind = .unary op x) (hv : ctx.value values s.id x = .ok v)
    (he : unaryExpr s.id op v = .ok (t, e)) (htype : shaderType s.id t = .ok type) :
    Simulates (Follows ctx ((s.id, ⟨.ident (.temp s.id), t⟩) :: values) (s.id :: visible) around
      [s.id] iter f store) (s.kind.perform s.id f)
      ((Lowering.bound s.id t type e).code.exec inv fuel store) := by
  have hint := h.integral
  rw [hkind, Module.isIntegral_unary] at hint
  obtain ⟨a, ha, hvt, hreads⟩ := h.word hag (by simp [hkind, Kind.operands]) hv hint.2
  obtain ⟨rfl, r, hr, heval⟩ := eval_unaryExpr hvt (hreads.eval inv) hint.1 he
  obtain rfl := shaderType_i32 htype
  rw [hkind, Kind.perform, ha, Lowering.bound, Code.done_append, exec_letBind heval]
  simp only [Run.done_bind, hr, Frame.give]
  exact h.follows_word hag hmem (.inl rfl) rfl hkind rfl (by simp) r

/-- A binary operator is followed. -/
theorem simulates_binary {op : BinaryOp} {y : StmtId} {u : Value} {n : Nat} {t : ValueType}
    {type : ShaderType} {e : Expr} {before : Code} (hkind : s.kind = .binary op x y)
    (hv : ctx.value values s.id x = .ok v) (hu : ctx.value values s.id y = .ok u)
    (hn : joinComponents s.id op v.type u.type = .ok n)
    (he : binaryExpr s.id op v u n = .ok (t, e, before)) (htype : shaderType s.id t = .ok type) :
    Simulates (Follows ctx ((s.id, ⟨.ident (.temp s.id), t⟩) :: values) (s.id :: visible) around
      [s.id] iter f store) (s.kind.perform s.id f)
      ((Lowering.bound s.id t type e before).code.exec inv fuel store) := by
  have hint := h.integral
  rw [hkind, Module.isIntegral_binary] at hint
  obtain ⟨a, ha, hvt, hreads⟩ := h.word hag (by simp [hkind, Kind.operands]) hv hint.1.2
  obtain ⟨b, hb, hut, hreads'⟩ := h.word hag (by simp [hkind, Kind.operands]) hu hint.2
  have hn1 : n = 1 := by
    rw [hvt, hut, joinComponents, if_pos (.inl rfl)] at hn
    exact (Except.ok.inj hn).symm
  subst hn1
  obtain ⟨rfl, hsim⟩ := exec_binaryExpr hvt hut hreads hreads' hint.1.1 he inv fuel
  obtain rfl := shaderType_i32 htype
  rw [hkind, Kind.perform, ha, Lowering.bound, Code.exec_append]
  simp only [Run.done_bind, hb]
  refine hsim.bind fun r q hq => ?_
  obtain ⟨flow, st⟩ := q
  obtain ⟨hnext, hqmem, heval, hlocals⟩ := hq
  cases hnext
  simp only [exec_letBind heval, Frame.give]
  refine h.follows_word hag hmem ?_ hqmem hkind rfl (by simp) r
  rcases hlocals with heq | ⟨d, heq⟩
  · exact .inl heq
  · exact .inr ⟨_, rfl, heq⟩

theorem simulates_argLoad {ty : Prim} {arg : Nat} {type : ShaderType}
    (hkind : s.kind = .argLoad ty arg) (htype : shaderType s.id (.ofPrim ty) = .ok type) :
    Simulates (Follows ctx ((s.id, ⟨.ident (.temp s.id), .ofPrim ty⟩) :: values) (s.id :: visible)
      around [s.id] iter f store) (s.kind.perform s.id f)
      ((Lowering.bound s.id (.ofPrim ty) type (fromWord (.word .args (.lit (.abstract arg))) ty)
        .done [ctx.useArgs]).code.exec inv fuel store) := by
  have hint := h.integral
  rw [hkind, Module.isIntegral_argLoad] at hint
  subst hint
  obtain rfl := shaderType_i32 htype
  have hword : fromWord (.word .args (.lit (.abstract arg))) .i32 =
      .word .args (.lit (.abstract arg)) := rfl
  rw [hkind, Kind.perform, Lowering.bound, Code.done_append, hword,
    exec_letBind_word (d := .abstract arg) (by simp [Expr.eval, Literal.eval]) rfl, hmem]
  refine (read_simulates _ _ fun _ _ => rfl).bind ?_
  rintro w _ rfl
  exact h.follows_word hag hmem (.inl rfl) rfl hkind rfl (by simp) w

/-- A loop is left on both sides. -/
theorem simulates_exitLoop (hkind : s.kind = .exitLoop) :
    Simulates (Follows ctx values (s.id :: visible) around [s.id] iter f store)
      (s.kind.perform s.id f) ((Lowering.emit .exitLoop).code.exec inv fuel store) := by
  have hadmits := h.admits
  rw [hkind] at hadmits ⊢
  obtain ⟨body, hloop⟩ := hadmits
  exact h.follows_here hag hmem .exit fun _ => h.inside ▸ exists_loop hloop

theorem simulates_nextIteration (hkind : s.kind = .nextIteration) :
    Simulates (Follows ctx values (s.id :: visible) around [s.id] iter f store)
      (s.kind.perform s.id f) ((Lowering.emit .nextIteration).code.exec inv fuel store) := by
  have hadmits := h.admits
  rw [hkind] at hadmits ⊢
  have hloop : ∃ kind, ctx.module.loopAround s.block = some kind := by
    rcases hadmits with ⟨body, hloop⟩ | ⟨bound, serial, body, hloop⟩
    · exact ⟨_, hloop⟩
    · exact ⟨_, hloop⟩
  obtain ⟨kind, hloop⟩ := hloop
  exact h.follows_here hag hmem .again fun _ => h.inside ▸ exists_loop hloop

end Standing

end WgslKernel.Codegen
