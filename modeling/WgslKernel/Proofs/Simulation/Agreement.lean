import WgslKernel.Proofs.Semantics.Kernel
import WgslKernel.Proofs.Simulation.Locals

/-!
# When a shader agrees with its kernel

A kernel knows its statements by number and a shader knows names in scope.  `Agrees` relates the two
through the generator's table.  It is about visible statements only, so it survives everything that
happens to the names of others.
-/

namespace WgslKernel

/-- A constant as a value of shaders. -/
def Datum.ofConst : Const → Datum
  | .i32 v => int v
  | .f32 bits => float bits

/-- What statement `x` stands for is of the sort that its kind makes. -/
def Module.Fits (m : Module) (x : StmtId) : Item → Prop
  | .word _ => m.isInteger x = true
  | .float _ => ∃ bits, m.kind? x = some (.const (.f32 bits))
  | .cell _ => m.kind? x = some (.alloca .i32)
  | .place buffer _ => ∃ f indices offset, m.kind? x = some (.globalPtr f indices offset) ∧
      f.buffer = buffer ∧ f.dtype = .i32
  | .scratch k => ∃ offset, m.kind? x = some (.temporary .i32 offset) ∧ k = offset / 4

namespace Codegen

/-! ## Reading an entry -/

/-- Expressions whose value is known from the names in scope: a name, or a constant. -/
inductive Reads (l : Locals) : Expr → Datum → Prop where
  | temp {y : StmtId} {slot : Slot} (h : l.get? (.temp y) = some slot) :
    Reads l (.ident (.temp y)) slot.value
  | counter {y : StmtId} {slot : Slot} (h : l.get? (.counter y) = some slot) :
    Reads l (.ident (.counter y)) slot.value
  | const (c : Const) : Reads l (Value.ofConst c).expr (.ofConst c)

theorem ofAbstract_toInt (v : Int32) : Datum.ofAbstract v.toInt = .done (.int v) := by
  have hlow := v.minValue_le_toInt
  have hhigh := v.toInt_le
  rw [Datum.ofAbstract, if_pos ⟨hlow, Int.lt_of_le_of_lt hhigh (by decide)⟩, Int32.ofInt_toInt]

/-- A constant is written as an expression with its value. -/
theorem eval_ofConst (inv : Invocation) (st : Store) (c : Const) :
    (Value.ofConst c).expr.eval inv st = .done (.ofConst c) := by
  cases c with
  | i32 v =>
    simp only [Value.ofConst, Expr.ofInt32]
    split
    · simp only [Expr.convert, Expr.eval, Expr.evalAll, Literal.eval, Run.done_bind, Callee.apply,
        Datum.convert]
      exact ofAbstract_toInt v
    · rename_i hmin
      have hlow : Int32.minValue.toInt < v.toInt :=
        Int.lt_iff_le_and_ne.2
          ⟨v.minValue_le_toInt, fun heq => hmin (Int32.toInt_inj.1 heq).symm⟩
      have hhigh : v.toInt < 2 ^ 31 := Int.lt_of_le_of_lt v.toInt_le (by decide)
      have hrange : -2 ^ 31 < v.toInt ∧ v.toInt < 2 ^ 31 := ⟨hlow, hhigh⟩
      simp only [Expr.int, Expr.eval, Literal.eval, if_pos hrange, Int32.ofInt_toInt]
      rfl
  | f32 bits =>
    simp only [Value.ofConst, Expr.ofFloat]
    split
    · rename_i hfinite
      simp [Expr.eval, Literal.eval, hfinite, Datum.ofConst]
    · simp [Expr.bitcast, Expr.eval, Expr.evalAll, Literal.eval, Callee.apply, Datum.bitcast,
        Datum.ofConst]

/-- What a name reads is its value. -/
theorem Reads.eval {st : Store} {e : Expr} {d : Datum} (h : Reads st.locals e d)
    (inv : Invocation) : e.eval inv st = .done d := by
  cases h with
  | temp h | counter h => simp [Expr.eval, Invocation.builtin?, h]
  | const c => exact eval_ofConst inv st c

/-- Reading depends on the names read. -/
theorem Reads.congr {l l' : Locals} {e : Expr} {d : Datum} (h : Reads l e d)
    (hl : ∀ n y, e = .ident n → n.owner? = some y → l'.get? n = l.get? n) : Reads l' e d := by
  cases h with
  | temp h => exact .temp (by rw [hl _ _ rfl rfl, h])
  | counter h => exact .counter (by rw [hl _ _ rfl rfl, h])
  | const c => exact .const c

/-- The entry of statement `x` denotes what the statement stands for. -/
def Denotes (l : Locals) (x : StmtId) (v : Value) : Item → Prop
  | .word w => v.type = .ofPrim .i32 ∧ Reads l v.expr (.int w)
  | .float bits => v.type = .ofPrim .f32 ∧ Reads l v.expr (.float bits)
  | .cell w => v = ⟨.ident (.temp x), .ofPrim .i32⟩ ∧
      l.get? (.temp x) = some ⟨.temp x, true, .int w⟩
  | .place _ i => v.type = .ofPrim .i32 ∧ Reads l v.expr (.int (Int32.ofInt i))
  | .scratch k => v = ⟨.lit (.abstract k), .ofPrim .i32⟩

theorem Denotes.congr {l l' : Locals} {x : StmtId} {v : Value} {item : Item}
    (h : Denotes l x v item)
    (hl : ∀ n y, v.expr = .ident n → n.owner? = some y → l'.get? n = l.get? n) :
    Denotes l' x v item := by
  cases item with
  | word | float | place => exact ⟨h.1, h.2.congr hl⟩
  | cell w =>
    obtain ⟨rfl, hget⟩ := h
    exact ⟨rfl, by rw [hl _ _ rfl rfl, hget]⟩
  | scratch => exact h

/-! ## Agreement -/

variable {ctx : Context} {values values' : Values} {walked visible around : List StmtId}
  {iter : StmtId → Int32} {env env' : StmtId → Option Item} {l l' : Locals} {x : StmtId}

/-- Kernel and shader agree on what is visible, in the iterations `iter` of the loops around. -/
structure Agrees (ctx : Context) (values : Values) (visible around : List StmtId)
    (iter : StmtId → Int32) (env : StmtId → Option Item) (l : Locals) : Prop where
  consts : ∀ {x : StmtId} {c : Const}, ctx.module.kind? x = some (.const c) →
    env x = some (.ofConst c)
  entry : ∀ {x : StmtId} {v : Value}, x ∈ visible → values.lookup x = some v →
    ∃ item, env x = some item ∧ ctx.module.Fits x item ∧ Denotes l x v item
  counter : ∀ {x : StmtId}, x ∈ around → ctx.module.Plays x .rangeFor →
    env x = some (.word (iter x)) ∧ l.get? (.counter x) = some ⟨.counter x, true, .int (iter x)⟩

theorem isInteger_of_const {m : Module} {w : Int32} (h : m.kind? x = some (.const (.i32 w))) :
    m.isInteger x = true := by
  simp [Module.isInteger, Module.isNumber, h, Kind.isAddress]

/-- **What an operand is read as denotes what it stands for.** -/
theorem Agrees.value (h : Agrees ctx values visible around iter env l)
    (htab : Tabled ctx values walked visible around) (hscope : x ∈ walked → x ∈ visible)
    {user : StmtId} {v : Value} (hv : ctx.value values user x = .ok v) :
    ∃ item, env x = some item ∧ ctx.module.Fits x item ∧ Denotes l x v item := by
  rcases value_eq_ok.1 hv with hv | ⟨-, c, hc, rfl⟩
  · exact h.entry (hscope (htab.keys hv)) hv
  · refine ⟨.ofConst c, h.consts hc, ?_, ?_⟩
    · cases c with
      | i32 w => exact isInteger_of_const hc
      | f32 bits => exact ⟨bits, hc⟩
    · cases c with
      | i32 w => exact ⟨rfl, .const (.i32 w)⟩
      | f32 bits => exact ⟨rfl, .const (.f32 bits)⟩

/-- Agreement depends only on what is visible, and on the constants. -/
theorem Agrees.congr (h : Agrees ctx values visible around iter env l)
    (htab : Tabled ctx values walked visible around) (hgrid : ctx.gridLoop = none)
    (hvalues : ∀ x ∈ visible, values'.lookup x = values.lookup x)
    (henv : ∀ x, x ∈ visible ∨ (∃ c, ctx.module.kind? x = some (.const c)) → env' x = env x)
    (hl : ∀ n, ∀ y ∈ visible, n.owner? = some y → l'.get? n = l.get? n) :
    Agrees ctx values' visible around iter env' l' where
  consts hc := by rw [henv _ (.inr ⟨_, hc⟩), h.consts hc]
  entry {x v} hx hv := by
    rw [hvalues x hx] at hv
    obtain ⟨item, hitem, hfits, hdenotes⟩ := h.entry hx hv
    refine ⟨item, by rw [henv x (.inl hx), hitem], hfits, hdenotes.congr fun n y hn hy => ?_⟩
    exact hl n y (htab.names hx hv hn hy) hy
  counter {x} hx hplays := by
    have hvis : x ∈ visible := htab.loops hx hplays (by simp [hgrid])
    obtain ⟨hitem, hget⟩ := h.counter hx hplays
    rw [henv x (.inl hvis), hl _ x hvis rfl]
    exact ⟨hitem, hget⟩

/-- A statement that has no entry can be counted as visible. -/
theorem Agrees.pass (h : Agrees ctx values visible around iter env l)
    (hx : values.lookup x = none) : Agrees ctx values (x :: visible) around iter env l where
  consts := h.consts
  entry {y v} hy hv := by
    rcases List.mem_cons.1 hy with rfl | hy
    · rw [hx] at hv
      cases hv
    · exact h.entry hy hv
  counter := h.counter

/-- So can one that was just given a value. -/
theorem Agrees.give (h : Agrees ctx values visible around iter env l)
    (htab : Tabled ctx values walked visible around) (hgrid : ctx.gridLoop = none)
    (hx : x ∉ walked) {v : Value} {item : Item} (hfits : ctx.module.Fits x item)
    (hconst : ∀ c, ctx.module.kind? x = some (.const c) → item = .ofConst c)
    (hdenotes : Denotes l' x v item)
    (hl : ∀ n, ∀ y ∈ visible, n.owner? = some y → l'.get? n = l.get? n) :
    Agrees ctx ((x, v) :: values) (x :: visible) around iter
      (fun y => if y = x then some item else env y) l' := by
  have hne : ∀ y ∈ visible, y ≠ x := fun y hy heq => hx (heq ▸ htab.walked_of_visible hy)
  refine ⟨fun {y c} hc => ?_, fun {y w} hy hw => ?_, fun {y} hy hplays => ?_⟩
  · split
    · rename_i heq
      rw [hconst c (heq ▸ hc)]
    · exact h.consts hc
  · rcases List.mem_cons.1 hy with rfl | hy
    · have hvw : v = w := by simpa [List.lookup_cons] using hw
      exact ⟨item, by simp, hfits, hvw ▸ hdenotes⟩
    · have hbeq : (y == x) = false := by simpa using hne y hy
      rw [List.lookup_cons, hbeq] at hw
      obtain ⟨item', hitem, hfits', hdenotes'⟩ := h.entry hy hw
      refine ⟨item', by rw [if_neg (hne y hy), hitem], hfits', hdenotes'.congr fun n z hn hz => ?_⟩
      exact hl n z (htab.names hy hw hn hz) hz
  · have hvis : y ∈ visible := htab.loops hy hplays (by simp [hgrid])
    obtain ⟨hitem, hget⟩ := h.counter hy hplays
    rw [if_neg (hne y hvis), hl _ y hvis rfl]
    exact ⟨hitem, hget⟩

end Codegen

end WgslKernel
