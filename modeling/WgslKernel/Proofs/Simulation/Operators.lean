import WgslKernel.Proofs.Semantics.Words
import WgslKernel.Proofs.Simulation.Agreement

/-!
# Operators

The expression that an operator is lowered to has, on integers, the value that the operator has in a
kernel.  A remainder is computed in two steps, so what is compared for a binary operator is the
expression after the lines before it.
-/

namespace WgslKernel.Codegen

variable {inv : Invocation} {st : Store} {id : StmtId} {x y : Value} {a b : Int32}
  {t : ValueType} {e : Expr}

/-! ## Evaluation rules -/

theorem eval_binary {op : Operator} {lhs rhs : Expr} {c d : Datum}
    (hl : lhs.eval inv st = .done c) (hr : rhs.eval inv st = .done d)
    (hop : op.shortcut c = none) : (Expr.binary op lhs rhs).eval inv st = op.apply c d := by
  simp [Expr.eval, hl, hr, hop]

/-- The arithmetic and comparison operators on two integers. -/
theorem eval_onInts {op : Operator} {lhs rhs : Expr} (hl : lhs.eval inv st = .done (.int a))
    (hr : rhs.eval inv st = .done (.int b)) :
    (Expr.binary op lhs rhs).eval inv st = op.onInts a b := by
  rw [eval_binary hl hr (by cases op <;> rfl)]
  cases op <;> rfl

theorem eval_int {v : Int} (h : -2 ^ 31 < v ∧ v < 2 ^ 31) :
    (Expr.int v).eval inv st = .done (.int (Int32.ofInt v)) := by
  simp only [Expr.int, Expr.eval, Literal.eval, if_pos h]

@[simp] theorem eval_int_zero : (Expr.int 0).eval inv st = .done (.int 0) := eval_int (by decide)

@[simp] theorem eval_int_one : (Expr.int 1).eval inv st = .done (.int 1) := eval_int (by decide)

@[simp] theorem eval_paren (e : Expr) : (Expr.paren e).eval inv st = e.eval inv st := by
  rw [Expr.eval]

theorem eval_func_one {f : Func} {c : Datum} (h : e.eval inv st = .done c) :
    (Expr.func f [e]).eval inv st = f.apply [c] := by
  simp [Expr.func, Expr.eval, Expr.evalAll, h, Callee.apply]

theorem eval_func_two {f : Func} {e₁ e₂ : Expr} {c d : Datum} (h₁ : e₁.eval inv st = .done c)
    (h₂ : e₂.eval inv st = .done d) : (Expr.func f [e₁, e₂]).eval inv st = f.apply [c, d] := by
  simp [Expr.func, Expr.eval, Expr.evalAll, h₁, h₂, Callee.apply]

theorem eval_convert {scalar : Scalar} {c : Datum} (h : e.eval inv st = .done c) :
    (Expr.convert ⟨scalar, 1⟩ e).eval inv st = c.convert scalar := by
  simp [Expr.convert, Expr.eval, Expr.evalAll, h, Callee.apply]

theorem eval_bitcast {scalar : Scalar} {c : Datum} (h : e.eval inv st = .done c) :
    (Expr.bitcast ⟨scalar, 1⟩ e).eval inv st = c.bitcast scalar := by
  simp [Expr.bitcast, Expr.eval, Expr.evalAll, h, Callee.apply]

/-- A truth value written as an integer. -/
theorem eval_truth {p : Bool} (h : e.eval inv st = .done (.truth p)) :
    (Expr.convert ⟨.i32, 1⟩ e).eval inv st = .done (.int (truthWord p)) := by
  rw [eval_convert h]
  cases p <;> rfl

/-- Both conditions, the second of which is looked at only if the first holds. -/
theorem eval_and {lhs rhs : Expr} {p q : Bool} (hl : lhs.eval inv st = .done (.truth p))
    (hr : rhs.eval inv st = .done (.truth q)) :
    (Expr.binary .and lhs rhs).eval inv st = .done (.truth (p && q)) := by
  cases p <;>
    simp [Expr.eval, hl, hr, Operator.shortcut, Operator.apply, Datum.unify, Operator.onSame]

theorem eval_or {lhs rhs : Expr} {p q : Bool} (hl : lhs.eval inv st = .done (.truth p))
    (hr : rhs.eval inv st = .done (.truth q)) :
    (Expr.binary .or lhs rhs).eval inv st = .done (.truth (p || q)) := by
  cases p <;>
    simp [Expr.eval, hl, hr, Operator.shortcut, Operator.apply, Datum.unify, Operator.onSame]

theorem coerce_i32 (hx : x.type = .ofPrim .i32) : x.coerce .i32 1 = x.expr := by
  simp [Value.coerce, hx, ValueType.ofPrim]

/-- A unary operator has its value. -/
theorem eval_unaryExpr {op : UnaryOp} (hx : x.type = .ofPrim .i32)
    (ha : x.expr.eval inv st = .done (.int a)) (hop : op.isIntegral = true)
    (h : unaryExpr id op x = .ok (t, e)) :
    t = .ofPrim .i32 ∧ ∃ r, op.onInt a = .done r ∧ e.eval inv st = .done (.int r) := by
  have hprim : x.type.prim = .i32 := by rw [hx]; rfl
  have hn : x.type.components = 1 := by rw [hx]; rfl
  cases op with
  | neg =>
    cases h
    have hneg : (Expr.neg (.paren x.expr)).eval inv st = .done (.int (-a)) := by
      simp [Expr.eval, ha]
    exact ⟨hx, _, rfl, by rw [hneg, Words.neg_eq]⟩
  | round | floor | ceil =>
    simp only [unaryExpr, if_pos hprim] at h
    cases h
    exact ⟨hx, a, rfl, ha⟩
  | castI32Value =>
    simp only [unaryExpr, hn, coerce_i32 hx] at h
    cases h
    exact ⟨rfl, a, rfl, ha⟩
  | castI32Bits =>
    simp only [unaryExpr, hn] at h
    cases h
    refine ⟨rfl, a, rfl, ?_⟩
    rw [eval_bitcast ha]
    rfl
  | abs =>
    cases h
    refine ⟨hx, _, rfl, ?_⟩
    rw [eval_func_one ha, Func.apply, Words.abs_eq]
  | sgn =>
    cases h
    refine ⟨hx, _, rfl, ?_⟩
    rw [eval_func_one ha, Func.apply, Words.sign_eq]
  | bitNot =>
    simp only [unaryExpr, requireInteger, if_pos hprim] at h
    cases h
    have hnot : (Expr.bitNot x.expr).eval inv st = .done (.int (~~~a)) := by
      simp [Expr.eval, ha]
    exact ⟨hx, _, rfl, by rw [hnot, Words.not_eq]⟩
  | logicNot =>
    simp only [unaryExpr, requireScalar, ValueType.isScalar, hn, hprim] at h
    cases h
    refine ⟨rfl, _, rfl, ?_⟩
    exact eval_truth (eval_onInts ha eval_int_zero)
  | _ => cases hop

/-! ## Binary operators -/

/-- An expression stands for an integer.  Its type may be open if the integer is not negative. -/
def StandsFor (inv : Invocation) (st : Store) (e : Expr) (a : Int32) : Prop :=
  e.eval inv st = .done (.int a) ∨ e.eval inv st = .done (.abstract a.toInt) ∧ 0 ≤ a.toInt

section StandsFor

variable {op : Operator} {e₁ e₂ e₃ : Expr} {r c d : Int32}

/-- Beside a 32-bit integer every integer is one. -/
theorem StandsFor.eval_left (h₁ : StandsFor inv st e₁ a) (h₂ : e₂.eval inv st = .done (.int b)) :
    (Expr.binary op e₁ e₂).eval inv st = op.onInts a b := by
  rcases h₁ with h₁ | ⟨h₁, -⟩
  · exact eval_onInts h₁ h₂
  · rw [eval_binary h₁ h₂ (by cases op <;> rfl)]
    simp only [Operator.apply, Datum.unify, ofAbstract_toInt, Run.done_bind]
    cases op <;> rfl

theorem StandsFor.eval_right (h₁ : e₁.eval inv st = .done (.int a)) (h₂ : StandsFor inv st e₂ b) :
    (Expr.binary op e₁ e₂).eval inv st = op.onInts a b := by
  rcases h₂ with h₂ | ⟨h₂, -⟩
  · exact eval_onInts h₁ h₂
  · rw [eval_binary h₁ h₂ (by cases op <;> rfl)]
    simp only [Operator.apply, Datum.unify, ofAbstract_toInt, Run.done_bind]
    cases op <;> rfl

/-- An operator whose result is the same for words and for integers of open type. -/
theorem StandsFor.binary (h₁ : StandsFor inv st e₁ a) (h₂ : StandsFor inv st e₂ b)
    (hints : op.onInts a b = .done (.int r)) (hopen : 0 ≤ a.toInt → 0 ≤ b.toInt →
      op.onOpen a.toInt b.toInt = Datum.ofOpen r.toInt ∧ 0 ≤ r.toInt) :
    StandsFor inv st (.binary op e₁ e₂) r := by
  rcases h₂ with h₂ | ⟨h₂, hb⟩
  · exact .inl (by rw [h₁.eval_left h₂, hints])
  rcases h₁ with h₁ | ⟨h₁, ha⟩
  · exact .inl (by rw [StandsFor.eval_right h₁ (.inr ⟨h₂, hb⟩), hints])
  · obtain ⟨hop, hr⟩ := hopen ha hb
    have hfits : r.toInt < 2 ^ 63 := Int.lt_trans r.toInt_lt (by decide)
    refine .inr ⟨?_, hr⟩
    rw [eval_binary h₁ h₂ (by cases op <;> rfl)]
    show op.onOpen a.toInt b.toInt = _
    rw [hop, Datum.ofOpen, if_pos ⟨by omega, hfits⟩]

theorem StandsFor.div (h₁ : StandsFor inv st e₁ a) (h₂ : StandsFor inv st e₂ b) (hb : b ≠ 0) :
    StandsFor inv st (.binary .div e₁ e₂) (a / b) := by
  refine h₁.binary h₂ (by rw [Operator.onInts, if_neg hb]) fun ha₀ hb₀ => ?_
  have hmin : a ≠ .minValue := by
    rintro rfl
    exact absurd ha₀ (by decide)
  rw [Operator.onOpen, if_neg (mt Words.toInt_eq_zero.1 hb), Int32.toInt_div_of_ne_left a b hmin]
  exact ⟨rfl, Int.tdiv_nonneg ha₀ hb₀⟩

theorem StandsFor.rem (h₁ : StandsFor inv st e₁ a) (h₂ : StandsFor inv st e₂ b) (hb : b ≠ 0) :
    StandsFor inv st (.binary .rem e₁ e₂) (a % b) := by
  refine h₁.binary h₂ (by rw [Operator.onInts, if_neg hb]) fun ha₀ _ => ?_
  rw [Operator.onOpen, if_neg (mt Words.toInt_eq_zero.1 hb), Int32.toInt_mod]
  exact ⟨rfl, Int.tmod_nonneg _ ha₀⟩

theorem StandsFor.select {no yes cond : Expr} {p : Bool} (hno : StandsFor inv st no c)
    (hyes : yes.eval inv st = .done (.int d)) (hcond : cond.eval inv st = .done (.truth p)) :
    (Expr.func .select [no, yes, cond]).eval inv st = .done (.int (if p then d else c)) := by
  rcases hno with hno | ⟨hno, -⟩ <;> cases p <;>
    simp [Expr.func, Expr.eval, Expr.evalAll, hno, hyes, hcond, Callee.apply, Func.apply,
      Datum.unify, ofAbstract_toInt]

theorem eval_signsDiffer (h₁ : StandsFor inv st e₁ a) (h₂ : StandsFor inv st e₂ b) :
    (signsDiffer e₁ e₂).eval inv st = .done (.truth (decide (a < 0) != decide (b < 0))) := by
  have hl : (Expr.paren (.binary .lt e₁ (.int 0))).eval inv st = .done (.truth (a < 0)) := by
    rw [eval_paren, h₁.eval_left eval_int_zero]
    rfl
  have hr : (Expr.paren (.binary .lt e₂ (.int 0))).eval inv st = .done (.truth (b < 0)) := by
    rw [eval_paren, h₂.eval_left eval_int_zero]
    rfl
  rw [signsDiffer, eval_binary hl hr rfl]
  rfl

/-- When the truncated result is corrected: a remainder is left, and the signs differ. -/
theorem eval_correction (h₁ : StandsFor inv st e₁ r) (h₂ : StandsFor inv st e₂ c)
    (h₃ : StandsFor inv st e₃ d) :
    (Expr.binary .and (.paren (.binary .ne e₁ (.int 0))) (.paren (signsDiffer e₂ e₃))).eval inv st =
      .done (.truth (decide (r ≠ 0) && (decide (c < 0) != decide (d < 0)))) := by
  have hne : (Expr.paren (.binary .ne e₁ (.int 0))).eval inv st = .done (.truth (r ≠ 0)) := by
    rw [eval_paren, h₁.eval_left eval_int_zero]
    rfl
  have hsigns : (Expr.paren (signsDiffer e₂ e₃)).eval inv st =
      .done (.truth (decide (c < 0) != decide (d < 0))) := by
    rw [eval_paren, eval_signsDiffer h₂ h₃]
  exact eval_and hne hsigns

/-- The corrected quotient is the floored one. -/
theorem eval_floorDivExpr (h₁ : StandsFor inv st e₁ a) (h₂ : StandsFor inv st e₂ b) (hb : b ≠ 0) :
    (floorDivExpr e₁ e₂).eval inv st =
      .done (.int (Int32.ofInt (a.toInt.fdiv b.toInt))) := by
  have hq := h₁.div h₂ hb
  have hq' : (Expr.binary .sub (.binary .div e₁ e₂) (.int 1)).eval inv st =
      .done (.int (a / b - 1)) := by
    rw [hq.eval_left eval_int_one]
    rfl
  rw [floorDivExpr, hq.select hq' (eval_correction (h₁.rem h₂ hb) h₁ h₂), ← Words.floorDiv_eq hb]

/-- The corrected remainder has the sign of the divisor. -/
theorem eval_floorModExpr (h₁ : e₁.eval inv st = .done (.int (a % b)))
    (h₂ : StandsFor inv st e₂ b) :
    (floorModExpr e₁ e₂).eval inv st =
      .done (.int (Int32.ofInt (a.toInt.fmod b.toInt))) := by
  have hsum : (Expr.binary .add e₁ e₂).eval inv st = .done (.int (a % b + b)) := by
    rw [StandsFor.eval_right h₁ h₂]
    rfl
  have hr : StandsFor inv st e₁ (a % b) := .inl h₁
  rw [floorModExpr, hr.select hsum (eval_correction hr hr h₂), ← Words.floorMod_eq]

end StandsFor

/-- A condition compares with zero. -/
theorem eval_isNonzero (hx : x.type = .ofPrim .i32) (ha : x.expr.eval inv st = .done (.int a)) :
    x.isNonzero.eval inv st = .done (.truth (a.toInt ≠ 0)) := by
  have hzero : Expr.zero x.type.prim = .int 0 := by rw [hx]; rfl
  rw [Value.isNonzero, eval_paren, hzero, eval_onInts ha eval_int_zero, Operator.onInts]
  simp only [Ne, Words.toInt_eq_zero]

/-- What a binary operator leaves: the store but for the truncated remainder, and its value. -/
def Computes (inv : Invocation) (st : Store) (id : StmtId) (e : Expr) (r : Int32)
    (q : Flow × Store) : Prop :=
  q.1 = .next ∧ q.2.memory = st.memory ∧ e.eval inv q.2 = .done (.int r) ∧
    (q.2.locals = st.locals ∨ ∃ d, q.2.locals = ⟨.remainder id, false, d⟩ :: st.locals)

theorem Computes.here {r : Int32} (h : e.eval inv st = .done (.int r)) :
    Computes inv st id e r (.next, st) := ⟨rfl, rfl, h, .inl rfl⟩

/-- The operators that come down to one expression. -/
theorem eval_binaryExpr {op : BinaryOp} {before : Code} (hx : x.type = .ofPrim .i32)
    (hy : y.type = .ofPrim .i32) (ha : x.expr.eval inv st = .done (.int a))
    (hb : y.expr.eval inv st = .done (.int b)) (hop : op.isIntegral = true) (hmod : op ≠ .mod)
    (h : binaryExpr id op x y 1 = .ok (t, e, before)) :
    t = .ofPrim .i32 ∧ before = .done ∧
      (op.onInts a b = .fault ∨ ∃ r, op.onInts a b = .done r ∧ e.eval inv st = .done (.int r)) := by
  have hpx : x.type.prim = .i32 := by rw [hx]; rfl
  have hpy : y.type.prim = .i32 := by rw [hy]; rfl
  have hnx : x.type.components = 1 := by rw [hx]; rfl
  have hny : y.type.components = 1 := by rw [hy]; rfl
  have hjoin : joinPrim x.type.prim y.type.prim = .i32 := by rw [hpx, hpy]; rfl
  have hzero : b.toInt = 0 ↔ b = 0 := Words.toInt_eq_zero
  cases op with simp only [binaryExpr, hjoin, coerce_i32 hx, coerce_i32 hy, requireScalar,
    ValueType.isScalar, hnx, hny] at h
  | mul | add | sub =>
    cases h
    refine ⟨rfl, rfl, .inr ⟨_, rfl, ?_⟩⟩
    rw [eval_onInts ha hb]
    simp only [Operator.onInts, Words.mul_eq, Words.add_eq, Words.sub_eq]
  | div =>
    cases h
    refine ⟨rfl, rfl, ?_⟩
    by_cases hb0 : b = 0
    · exact .inl (by simp [BinaryOp.onInts, hb0])
    · refine .inr ⟨Int32.ofInt (a.toInt.tdiv b.toInt), by simp [BinaryOp.onInts, hzero, hb0], ?_⟩
      rw [eval_onInts ha hb, Operator.onInts, if_neg hb0, Words.div_eq]
  | floorDiv =>
    cases h
    refine ⟨rfl, rfl, ?_⟩
    by_cases hb0 : b = 0
    · exact .inl (by simp [BinaryOp.onInts, hb0])
    · refine .inr ⟨Int32.ofInt (a.toInt.fdiv b.toInt), by simp [BinaryOp.onInts, hzero, hb0], ?_⟩
      exact eval_floorDivExpr (.inl ha) (.inl hb) hb0
  | max | min =>
    cases h
    refine ⟨rfl, rfl, .inr ⟨_, rfl, ?_⟩⟩
    rw [eval_func_two ha hb]
    simp only [Func.apply, Words.max_eq, Words.min_eq]
  | bitAnd | bitOr | bitXor =>
    cases h
    exact ⟨rfl, rfl, .inr ⟨_, rfl, eval_onInts ha hb⟩⟩
  | bitShl | bitSar =>
    cases h
    have hk : (Expr.convert ⟨.u32, 1⟩ y.expr).eval inv st = .done (.word b.toUInt32) :=
      eval_convert hb
    refine ⟨rfl, rfl, .inr ⟨_, rfl, ?_⟩⟩
    rw [eval_binary ha hk rfl]
    simp only [Operator.apply, Datum.unify, Run.done_bind, Operator.onSame, Words.shiftAmount_eq,
      Words.shiftLeft_eq, Words.shiftRight_eq]
  | bitShr =>
    cases h
    have hw : (Expr.convert ⟨.u32, 1⟩ x.expr).eval inv st = .done (.word a.toUInt32) :=
      eval_convert ha
    have hk : (Expr.convert ⟨.u32, 1⟩ y.expr).eval inv st = .done (.word b.toUInt32) :=
      eval_convert hb
    refine ⟨rfl, rfl, .inr ⟨_, rfl, ?_⟩⟩
    rw [eval_convert (eval_binary hw hk rfl), Words.shiftAmount_eq, Datum.convert,
      Words.logicalShiftRight_eq]
  | cmpLt | cmpLe | cmpGt | cmpGe | cmpEq | cmpNe =>
    cases h
    refine ⟨rfl, rfl, .inr ⟨_, rfl, ?_⟩⟩
    rw [eval_truth (eval_onInts ha hb)]
    simp only [Int32.lt_iff_toInt_lt, Int32.le_iff_toInt_le, ← Int32.toInt_inj, Ne]
  | logicalOr =>
    cases h
    refine ⟨rfl, rfl, .inr ⟨_, rfl, ?_⟩⟩
    rw [eval_truth (eval_or (eval_isNonzero hx ha) (eval_isNonzero hy hb)), Bool.decide_or]
  | logicalAnd =>
    cases h
    refine ⟨rfl, rfl, .inr ⟨_, rfl, ?_⟩⟩
    rw [eval_truth (eval_and (eval_isNonzero hx ha) (eval_isNonzero hy hb)), Bool.decide_and]
  | mod => exact absurd rfl hmod
  | trueDiv | atan2 | pow => cases hop

/-- No entry of the table reads a truncated remainder. -/
theorem Reads.declare_remainder {l : Locals} {c d : Datum} (h : Reads l e d) :
    Reads (⟨.remainder id, false, c⟩ :: l) e d := by
  cases h with
  | temp h => exact .temp (by rw [Locals.get?_cons_of_ne (by simp), h])
  | counter h => exact .counter (by rw [Locals.get?_cons_of_ne (by simp), h])
  | const c => exact .const c

/-- A remainder is computed in two steps. -/
theorem exec_floorMod {fuel : Nat} (ha : Reads st.locals x.expr (.int a))
    (hb : Reads st.locals y.expr (.int b)) :
    Simulates (Computes inv st id (floorModExpr (.ident (.remainder id)) y.expr))
      (BinaryOp.onInts .mod a b)
      ((Code.line (.letBind (.remainder id) (some ⟨.i32, 1⟩) (.binary .rem x.expr y.expr))
        .done).exec inv fuel st) := by
  by_cases hb0 : b = 0
  · simp [BinaryOp.onInts, hb0, Simulates]
  · have hzero : b.toInt ≠ 0 := fun h => hb0 (Words.toInt_eq_zero.1 h)
    have hrem : (Expr.binary .rem x.expr y.expr).eval inv st = .done (.int (a % b)) := by
      rw [eval_onInts (ha.eval inv) (hb.eval inv), Operator.onInts, if_neg hb0]
    have hexec : (Code.line (.letBind (.remainder id) (some ⟨.i32, 1⟩)
        (.binary .rem x.expr y.expr)) .done).exec inv fuel st =
        .done (.next, st.declare (.remainder id) false (.int (a % b))) := by
      simp [Code.exec, Line.exec, hrem, Datum.typed]
    rw [hexec, BinaryOp.onInts, if_neg hzero]
    refine ⟨rfl, rfl, eval_floorModExpr ?_ (.inl (hb.declare_remainder.eval inv)), .inr ⟨_, rfl⟩⟩
    simp [Expr.eval, Invocation.builtin?, Store.declare, Locals.get?_cons]

/-- **A binary operator computes in the shader what it computes in the kernel.** -/
theorem exec_binaryExpr {op : BinaryOp} {before : Code} (hx : x.type = .ofPrim .i32)
    (hy : y.type = .ofPrim .i32) (ha : Reads st.locals x.expr (.int a))
    (hb : Reads st.locals y.expr (.int b)) (hop : op.isIntegral = true)
    (h : binaryExpr id op x y 1 = .ok (t, e, before)) (inv : Invocation) (fuel : Nat) :
    t = .ofPrim .i32 ∧
      Simulates (Computes inv st id e) (op.onInts a b) (before.exec inv fuel st) := by
  by_cases hmod : op = .mod
  · subst hmod
    have hpx : x.type.prim = .i32 := by rw [hx]; rfl
    have hpy : y.type.prim = .i32 := by rw [hy]; rfl
    have hnx : x.type.components = 1 := by rw [hx]; rfl
    have hny : y.type.components = 1 := by rw [hy]; rfl
    have hjoin : joinPrim x.type.prim y.type.prim = .i32 := by rw [hpx, hpy]; rfl
    simp only [binaryExpr, hjoin, coerce_i32 hx, coerce_i32 hy, requireScalar,
      ValueType.isScalar, hnx, hny] at h
    cases h
    exact ⟨rfl, exec_floorMod ha hb⟩
  · obtain ⟨ht, rfl, hop⟩ := eval_binaryExpr hx hy (ha.eval inv) (hb.eval inv) hop hmod h
    refine ⟨ht, ?_⟩
    rcases hop with hfault | ⟨r, hr, he⟩
    · rw [hfault]
      trivial
    · rw [hr]
      exact Computes.here he

end WgslKernel.Codegen
