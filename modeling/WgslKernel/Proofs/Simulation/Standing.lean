import WgslKernel.Proofs.Simulation.Operators

/-!
# A statement in its place

`Standing` collects what is known when a walk comes to a statement of an integer kernel, and
`Follows` is what is compared behind it.
-/

namespace WgslKernel

namespace Run

variable {α σ : Type}

theorem bind_andThen (x : Run α) (f : α → Run (Flow × σ)) (k : σ → Run (Flow × σ)) :
    (x >>= f).andThen k = x >>= fun a => (f a).andThen k := by
  cases x <;> rfl

end Run

/-- Running two sequences is running one after the other. -/
theorem Code.exec_append (inv : Invocation) (fuel : Nat) (c d : Code) (st : Store) :
    (c ++ d).exec inv fuel st = (c.exec inv fuel st).andThen (d.exec inv fuel) := by
  induction c generalizing st with
  | done => rfl
  | line l rest ih =>
    simp only [line_append, exec, Run.andThen_assoc]
    congr 1
    exact funext ih
  | branch e yes rest _ ih | branchElse e yes no rest _ _ ih =>
    simp only [branch_append, branchElse_append, exec, Run.bind_andThen, Run.andThen_assoc]
    congr 1
    funext b
    congr 1
    exact funext ih
  | loop body rest _ ih | countLoop h body rest _ ih =>
    simp only [loop_append, countLoop_append, exec, Run.bind_andThen, ih]

namespace Codegen

variable {ctx : Context} {values : Values} {s : Stmt} {l : Lowering}
  {walked visible around ids : List StmtId} {iter : StmtId → Int32} {f : Frame} {store : Store}
  {x : StmtId} {v : Value}

/-! ## What is compared -/

/-- The shader has followed the kernel, from `f` and `store` on and through statements `ids`. -/
structure Follows (ctx : Context) (values : Values) (visible around ids : List StmtId)
    (iter : StmtId → Int32) (f : Frame) (store : Store) (a : Flow × Frame) (b : Flow × Store) :
    Prop where
  flow : a.1 = b.1
  memory : a.2.memory = b.2.memory
  grows : Locals.Grows ids store.locals b.2.locals
  /-- The integers of other statements stay what they were. -/
  keeps : ∀ {y : StmtId} {w : Int32}, y ∉ ids → f.env y = some (.word w) →
    a.2.env y = some (.word w)
  agrees : Agrees ctx values visible around iter a.2.env b.2.locals
  /-- Control is only taken elsewhere from inside a loop. -/
  inLoop : a.1 ≠ .next → ∃ x ∈ around, ∃ kind, ctx.module.kind? x = some kind ∧ kind.isLoop = true

/-- A statement of an integer kernel at its place in a walk. -/
structure Standing (ctx : Context) (values : Values) (s : Stmt)
    (walked visible around : List StmtId) : Prop where
  table : Tabled ctx values walked visible around
  grid : ctx.gridLoop = none
  found : ctx.module.stmts[s.id]? = some s
  fresh : s.id ∉ walked
  scope : ∀ x ∈ s.kind.operands, x ∈ walked → x ∈ visible
  inside : ctx.module.enclosing s.block = around
  admits : ctx.module.Admits s.block s.kind
  integral : ctx.module.isIntegral s.kind = true

namespace Standing

variable (h : Standing ctx values s walked visible around)
include h

theorem kind? : ctx.module.kind? s.id = some s.kind := by
  rw [Module.kind?, h.found, Option.map_some]

theorem lookup_none : values.lookup s.id = none := h.table.lookup_none h.fresh

/-- Names that belong to the statement are not those of a visible one. -/
theorem get?_cons {slot : Slot} (hslot : slot.name.owner? = some s.id) (l : Locals) (n : Ident)
    (y : StmtId) (hy : y ∈ visible) (hn : n.owner? = some y) :
    Locals.get? (slot :: l) n = l.get? n := by
  refine Locals.get?_cons_of_ne fun heq => h.fresh ?_
  rw [heq, hn] at hslot
  exact Option.some.inj hslot ▸ h.table.walked_of_visible hy

/-- An operand is there on both sides. -/
theorem value (hag : Agrees ctx values visible around iter f.env store.locals)
    (hx : x ∈ s.kind.operands) (hv : ctx.value values s.id x = .ok v) :
    ∃ item, f.env x = some item ∧ ctx.module.Fits x item ∧ Denotes store.locals x v item :=
  hag.value h.table (h.scope x hx) hv

/-- An operand that has to be an integer is one. -/
theorem word (hag : Agrees ctx values visible around iter f.env store.locals)
    (hx : x ∈ s.kind.operands) (hv : ctx.value values s.id x = .ok v)
    (hint : ctx.module.isInteger x = true) :
    ∃ w, f.word x = .done w ∧ v.type = .ofPrim .i32 ∧ Reads store.locals v.expr (.int w) := by
  obtain ⟨item, henv, hfits, hdenotes⟩ := h.value hag hx hv
  cases item with
  | word w =>
    exact ⟨w, by simp [Frame.word, Frame.item, henv, Item.asWord], hdenotes.1, hdenotes.2⟩
  | float =>
    obtain ⟨bits, hkind⟩ := hfits
    simp [Module.isInteger, hkind] at hint
  | cell => simp [Module.isInteger, Module.isNumber, show _ = _ from hfits, Kind.isAddress] at hint
  | place =>
    obtain ⟨_, _, _, hkind, -, -⟩ := hfits
    simp [Module.isInteger, Module.isNumber, hkind, Kind.isAddress] at hint
  | scratch =>
    obtain ⟨_, hkind, -⟩ := hfits
    simp [Module.isInteger, Module.isNumber, hkind, Kind.isAddress] at hint

/-- An operand that is a number is an integer, or a float constant with the type of one. -/
theorem number (hag : Agrees ctx values visible around iter f.env store.locals)
    (hx : x ∈ s.kind.operands) (hv : ctx.value values s.id x = .ok v)
    (hnum : ctx.module.isNumber x = true) :
    (∃ w, f.env x = some (.word w) ∧ v.type = .ofPrim .i32 ∧ Reads store.locals v.expr (.int w)) ∨
    ∃ bits, f.env x = some (.float bits) ∧ v.type = .ofPrim .f32 ∧
      Reads store.locals v.expr (.float bits) := by
  obtain ⟨item, henv, hfits, hdenotes⟩ := h.value hag hx hv
  cases item with
  | word w => exact .inl ⟨w, henv, hdenotes.1, hdenotes.2⟩
  | float bits => exact .inr ⟨bits, henv, hdenotes.1, hdenotes.2⟩
  | cell => simp [Module.isNumber, show _ = _ from hfits, Kind.isAddress] at hnum
  | place =>
    obtain ⟨_, _, _, hkind, -, -⟩ := hfits
    simp [Module.isNumber, hkind, Kind.isAddress] at hnum
  | scratch =>
    obtain ⟨_, hkind, -⟩ := hfits
    simp [Module.isNumber, hkind, Kind.isAddress] at hnum

/-- A number of integer type is an integer. -/
theorem word_of_type (hag : Agrees ctx values visible around iter f.env store.locals)
    (hx : x ∈ s.kind.operands) (hv : ctx.value values s.id x = .ok v)
    (hnum : ctx.module.isNumber x = true) (ht : v.type = .ofPrim .i32) :
    ∃ w, f.word x = .done w ∧ Reads store.locals v.expr (.int w) := by
  rcases h.number hag hx hv hnum with ⟨w, henv, -, hreads⟩ | ⟨bits, -, hf, -⟩
  · exact ⟨w, by simp [Frame.word, Frame.item, henv, Item.asWord], hreads⟩
  · rw [ht] at hf
    cases hf

/-! ## Giving a value -/

/-- A statement that stands for something without adding code. -/
theorem follows_standIn (hag : Agrees ctx values visible around iter f.env store.locals)
    (hmem : f.memory = store.memory) {item : Item} (hfits : ctx.module.Fits s.id item)
    (hconst : ∀ c, s.kind = .const c → item = .ofConst c)
    (hdenotes : Denotes store.locals s.id v item) :
    Follows ctx ((s.id, v) :: values) (s.id :: visible) around [s.id] iter f store
      (.next, f.set s.id item) (.next, store) where
  flow := rfl
  memory := hmem
  grows := .refl
  keeps hy hw := (Frame.set_env_of_ne (by simpa using hy)).trans hw
  agrees := by
    refine hag.give h.table h.grid h.fresh hfits (fun c hc => hconst c ?_) hdenotes
      (fun _ _ _ _ => rfl)
    rw [h.kind?] at hc
    exact Option.some.inj hc
  inLoop hne := absurd rfl hne

/-- A statement that declares a name for what it stands for. -/
theorem follows_declare (hag : Agrees ctx values visible around iter f.env store.locals)
    {st : Store} (hmem : f.memory = st.memory)
    (hst : st.locals = store.locals ∨
      ∃ slot : Slot, slot.name.owner? = some s.id ∧ st.locals = slot :: store.locals)
    {item : Item} {isVar : Bool} {d : Datum} (hfits : ctx.module.Fits s.id item)
    (hconst : ∀ c, s.kind ≠ .const c)
    (hdenotes : Denotes (⟨.temp s.id, isVar, d⟩ :: st.locals) s.id v item) :
    Follows ctx ((s.id, v) :: values) (s.id :: visible) around [s.id] iter f store
      (.next, f.set s.id item) (.next, st.declare (.temp s.id) isVar d) where
  flow := rfl
  memory := hmem
  grows := by
    have hst' : Locals.Grows [s.id] store.locals st.locals := by
      rcases hst with hst | ⟨slot, hslot, hst⟩
      · rw [hst]
        exact .refl
      · rw [hst]
        exact .declare List.mem_cons_self hslot
    exact hst'.trans (.declare List.mem_cons_self rfl)
  keeps hy hw := (Frame.set_env_of_ne (by simpa using hy)).trans hw
  agrees := by
    refine hag.give h.table h.grid h.fresh hfits (fun c hc => ?_) hdenotes fun n y hy hn => ?_
    · rw [h.kind?] at hc
      exact absurd (Option.some.inj hc) (hconst c)
    · rw [Store.declare, h.get?_cons rfl _ n y hy hn]
      rcases hst with hst | ⟨slot, hslot, hst⟩
      · rw [hst]
      · rw [hst, h.get?_cons hslot _ n y hy hn]
  inLoop hne := absurd rfl hne

/-- A statement that only says where control goes. -/
theorem follows_here (hag : Agrees ctx values visible around iter f.env store.locals)
    (hmem : f.memory = store.memory) (flow : Flow)
    (hloop : flow ≠ .next →
      ∃ x ∈ around, ∃ kind, ctx.module.kind? x = some kind ∧ kind.isLoop = true) :
    Follows ctx values (s.id :: visible) around [s.id] iter f store (flow, f) (flow, store)
    where
  flow := rfl
  memory := hmem
  grows := .refl
  keeps _ hw := hw
  agrees := hag.pass h.lookup_none
  inLoop := hloop

/-- A statement that only changes the buffers. -/
theorem follows_effect (hag : Agrees ctx values visible around iter f.env store.locals)
    (memory : Memory) :
    Follows ctx values (s.id :: visible) around [s.id] iter f store
      (.next, { f with memory }) (.next, { store with memory }) where
  flow := rfl
  memory := rfl
  grows := .refl
  keeps _ hw := hw
  agrees := hag.pass h.lookup_none
  inLoop hne := absurd rfl hne

end Standing

end Codegen

end WgslKernel
