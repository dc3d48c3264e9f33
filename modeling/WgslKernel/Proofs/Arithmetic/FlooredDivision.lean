import Mathlib.Data.Rat.Floor
import Mathlib.Tactic.Linarith
import WgslKernel.Proofs.Codegen.Operands
import WgslKernel.Proofs.Memory.Addressing

/-!
# Floored division

A shader divides towards zero and its words wrap around.  The quotient and the remainder of a kernel
are the floored ones, and are computed by correcting the truncated ones.  Nothing wraps on the way
but for the one quotient that is not a word.
-/

namespace WgslKernel

namespace Words

variable {x y : Int}

/-- The floored remainder lies between zero and the divisor. -/
theorem fmod_bounds (x : Int) (hy : y ≠ 0) :
    0 ≤ x.fmod y ∧ x.fmod y < y ∨ y < x.fmod y ∧ x.fmod y ≤ 0 := by
  rcases Int.lt_or_gt_of_ne hy with hneg | hpos
  · have hle := Int.fmod_nonneg_of_pos (-x) (Int.neg_pos_of_neg hneg)
    have hlt := Int.fmod_lt_of_pos (-x) (Int.neg_pos_of_neg hneg)
    rw [Int.neg_fmod_neg] at hle hlt
    exact .inr ⟨Int.neg_lt_neg_iff.1 hlt, by omega⟩
  · exact .inl ⟨Int.fmod_nonneg_of_pos x hpos, Int.fmod_lt_of_pos x hpos⟩

/-- Floored division is the floor of the quotient. -/
theorem floor_div (hy : y ≠ 0) : ⌊(x : ℚ) / y⌋ = x.fdiv y := by
  have hsum : ((y * x.fdiv y + x.fmod y : Int) : ℚ) = x := by rw [Int.mul_fdiv_add_fmod]
  push_cast at hsum
  rw [Int.floor_eq_iff]
  rcases fmod_bounds x hy with ⟨hlow, hhigh⟩ | ⟨hlow, hhigh⟩
  · have hy' : (0 : ℚ) < y := by exact_mod_cast Int.lt_of_le_of_lt hlow hhigh
    have hlow' : (0 : ℚ) ≤ x.fmod y := by exact_mod_cast hlow
    have hhigh' : (x.fmod y : ℚ) < y := by exact_mod_cast hhigh
    rw [le_div_iff₀ hy', div_lt_iff₀ hy']
    constructor <;> linarith
  · have hy' : (y : ℚ) < 0 := by exact_mod_cast Int.lt_of_lt_of_le hlow hhigh
    have hlow' : (y : ℚ) < x.fmod y := by exact_mod_cast hlow
    have hhigh' : (x.fmod y : ℚ) ≤ 0 := by exact_mod_cast hhigh
    rw [le_div_iff_of_neg hy', div_lt_iff_of_neg hy']
    constructor <;> linarith

/-- Only one quotient of words is not a word. -/
theorem fdiv_range (hlow : -2 ^ 31 ≤ x) (hhigh : x < 2 ^ 31) (hy : y ≠ 0)
    (hxy : ¬ (x = -2 ^ 31 ∧ y = -1)) : -2 ^ 31 ≤ x.fdiv y ∧ x.fdiv y < 2 ^ 31 := by
  have hsum := Int.mul_fdiv_add_fmod x y
  generalize x.fdiv y = q at hsum ⊢
  rcases fmod_bounds x hy with ⟨h₀, h₁⟩ | ⟨h₁, h₀⟩
  · constructor <;> nlinarith
  · by_cases hone : y = -1
    · subst hone
      omega
    · have hy' : y ≤ -2 := by omega
      constructor <;> nlinarith

end Words

/-! ## Words -/

/-- The floored quotient and remainder of two words.  The least word by -1 wraps around. -/
structure Floored (a b q r : Int32) : Prop where
  quotient : ¬ (a = .minValue ∧ b = -1) → q.toInt = ⌊(a.toInt : ℚ) / b.toInt⌋
  remainder : r.toInt = a.toInt - b.toInt * ⌊(a.toInt : ℚ) / b.toInt⌋
  sign : 0 ≤ r ∧ r < b ∨ b < r ∧ r ≤ 0
  least : a = .minValue → b = -1 → q = .minValue ∧ r = 0
  sum : q * b + r = a

namespace Words

variable {a b : Int32}

theorem bounds (a : Int32) : -2 ^ 31 ≤ a.toInt ∧ a.toInt < 2 ^ 31 :=
  ⟨a.minValue_le_toInt, Int.lt_of_le_of_lt a.toInt_le (by decide)⟩

theorem not_least (h : ¬ (a = .minValue ∧ b = -1)) : ¬ (a.toInt = -2 ^ 31 ∧ b.toInt = -1) := by
  rintro ⟨ha, hb⟩
  exact h ⟨Int32.toInt_inj.1 ha, Int32.toInt_inj.1 hb⟩

/-- The floored quotient is a word, but for one case. -/
theorem toInt_fdiv (hb : b ≠ 0) (h : ¬ (a = .minValue ∧ b = -1)) :
    (Int32.ofInt (a.toInt.fdiv b.toInt)).toInt = a.toInt.fdiv b.toInt := by
  obtain ⟨hlow, hhigh⟩ := fdiv_range (bounds a).1 (bounds a).2 (mt toInt_eq_zero.1 hb) (not_least h)
  exact Int32.toInt_ofInt_of_le hlow hhigh

/-- The floored remainder is always a word. -/
theorem toInt_fmod (hb : b ≠ 0) :
    (Int32.ofInt (a.toInt.fmod b.toInt)).toInt = a.toInt.fmod b.toInt := by
  have hbounds := fmod_bounds a.toInt (mt toInt_eq_zero.1 hb)
  have hlimits := bounds b
  exact Int32.toInt_ofInt_of_le (by omega) (by omega)

/-- The words a kernel computes are the floored ones. -/
theorem floored_divMod (hb : b ≠ 0) :
    Floored a b (Int32.ofInt (a.toInt.fdiv b.toInt)) (Int32.ofInt (a.toInt.fmod b.toInt)) where
  quotient h := by rw [toInt_fdiv hb h, floor_div (mt toInt_eq_zero.1 hb)]
  remainder := by
    have hsum := Int.mul_fdiv_add_fmod a.toInt b.toInt
    rw [toInt_fmod hb, floor_div (mt toInt_eq_zero.1 hb)]
    omega
  sign := by
    simp only [Int32.le_iff_toInt_le, Int32.lt_iff_toInt_lt, toInt_fmod hb, Int32.toInt_zero]
    exact fmod_bounds a.toInt (mt toInt_eq_zero.1 hb)
  least ha hb := by
    subst ha hb
    decide
  sum := by
    have hsum : a.toInt.fdiv b.toInt * b.toInt + a.toInt.fmod b.toInt = a.toInt := by
      rw [Int.mul_comm, Int.mul_fdiv_add_fmod]
    rw [← Int32.ofInt_toInt b, ← Int32.ofInt_mul, ← Int32.ofInt_add, Int32.toInt_ofInt_of_le
      (bounds b).1 (bounds b).2, hsum, Int32.ofInt_toInt]

end Words

/-! ## Nothing wraps around -/

/-- The integer that a sum, a difference or a quotient stands for, if none of them wraps around.  Of
a `select` only the side that is picked counts. -/
def Expr.unwrapped (inv : Invocation) (st : Store) : Expr → Option Int
  | binary .add a b => do
    let i ← unwrapped inv st a
    let j ← unwrapped inv st b
    fitSigned (i + j)
  | binary .sub a b => do
    let i ← unwrapped inv st a
    let j ← unwrapped inv st b
    fitSigned (i - j)
  | binary .div a b => do
    let i ← unwrapped inv st a
    let j ← unwrapped inv st b
    fitSigned (i.tdiv j)
  | call (.func .select) [no, yes, cond] =>
    match cond.eval inv st with
    | .done (.truth true) => unwrapped inv st yes
    | .done (.truth false) => unwrapped inv st no
    | _ => none
  | e => e.exactOperand inv st

attribute [local simp] Expr.unwrapped

theorem fitSigned_of_range {i : Int} (h : -2 ^ 31 ≤ i ∧ i < 2 ^ 31) : fitSigned i = some i :=
  if_pos h

theorem fitSigned_toInt (a : Int32) : fitSigned a.toInt = some a.toInt :=
  fitSigned_of_range (Words.bounds a)

namespace Codegen

variable {inv : Invocation} {st : Store} {e₁ e₂ : Expr} {a b : Int32}

/-- Nothing is computed in an operand. -/
theorem Operand.unwrapped (h : Operand e₁) (he : StandsFor inv st e₁ a) :
    e₁.unwrapped inv st = some a.toInt := by
  have hexact : e₁.unwrapped inv st = e₁.exactOperand inv st := by
    cases h with
    | temp | counter | gridIndex | word => simp
    | const c =>
      cases c with
      | i32 v =>
        simp only [Value.ofConst, Expr.ofInt32]
        split <;> simp [Expr.convert, Expr.int]
      | f32 bits =>
        simp only [Value.ofConst, Expr.ofFloat]
        split <;> simp [Expr.bitcast]
  rw [hexact, Expr.exactOperand]
  rcases he with he | ⟨he, -⟩
  · rw [he]
  · rw [he]
    exact fitSigned_toInt a

/-- The truncated remainder is declared for one statement only, and no operand reads it. -/
theorem Operand.eval_declare (h : Operand e₁) (id : StmtId) (d : Datum) :
    e₁.eval inv (st.declare (.remainder id) false d) = e₁.eval inv st := by
  cases h with
  | temp | counter | gridIndex =>
    simp only [Expr.eval, Store.declare, Locals.get?_cons_of_ne, Ne, reduceCtorEq,
      not_false_eq_true]
  | const c => rw [eval_ofConst, eval_ofConst]
  | word => rfl

section Rules

variable {i j : Int} (h₁ : e₁.unwrapped inv st = some i) (h₂ : e₂.unwrapped inv st = some j)
include h₁ h₂

theorem unwrapped_add : (Expr.binary .add e₁ e₂).unwrapped inv st = fitSigned (i + j) := by
  simp [h₁, h₂]

theorem unwrapped_sub : (Expr.binary .sub e₁ e₂).unwrapped inv st = fitSigned (i - j) := by
  simp [h₁, h₂]

theorem unwrapped_div : (Expr.binary .div e₁ e₂).unwrapped inv st = fitSigned (i.tdiv j) := by
  simp [h₁, h₂]

end Rules

theorem unwrapped_select {no yes cond : Expr} {p : Bool}
    (h : cond.eval inv st = .done (.truth p)) :
    (Expr.func .select [no, yes, cond]).unwrapped inv st =
      if p then yes.unwrapped inv st else no.unwrapped inv st := by
  cases p <;> simp [Expr.func, h]

/-- The correction of a quotient does not wrap around. -/
theorem unwrapped_floorDivExpr (h₁ : Operand e₁) (h₂ : Operand e₂)
    (ha : StandsFor inv st e₁ a) (hb : StandsFor inv st e₂ b) (hb0 : b ≠ 0)
    (h : ¬ (a = .minValue ∧ b = -1)) :
    (floorDivExpr e₁ e₂).unwrapped inv st = some (a.toInt.fdiv b.toInt) := by
  have htdiv : a.toInt.tdiv b.toInt = (a / b).toInt := by
    by_cases hmin : a = .minValue
    · exact (Int32.toInt_div_of_ne_right a b fun hone => h ⟨hmin, hone⟩).symm
    · exact (Int32.toInt_div_of_ne_left a b hmin).symm
  have hq : (Expr.binary .div e₁ e₂).unwrapped inv st = some (a.toInt.tdiv b.toInt) := by
    rw [unwrapped_div (h₁.unwrapped ha) (h₂.unwrapped hb), htdiv, fitSigned_toInt]
  have hfdiv := Words.fdiv_eq (x := a.toInt) (mt Words.toInt_eq_zero.1 hb0)
  rw [floorDivExpr, unwrapped_select (eval_correction (ha.rem hb hb0) ha hb)]
  simp only [Words.correction_iff]
  split
  · rename_i hcorrect
    rw [if_pos hcorrect] at hfdiv
    have hone : (Expr.int 1).unwrapped inv st = some 1 := by
      simp [Expr.int, Expr.exactOperand, Expr.eval, Literal.eval]
    rw [unwrapped_sub hq hone, ← hfdiv]
    exact fitSigned_of_range
      (Words.fdiv_range (Words.bounds a).1 (Words.bounds a).2 (mt Words.toInt_eq_zero.1 hb0)
        (Words.not_least h))
  · rename_i hkeep
    rw [hq, hfdiv, if_neg hkeep]

/-- The correction of a remainder does not wrap around. -/
theorem unwrapped_floorModExpr {id : StmtId} (h₂ : Operand e₂)
    (hr : (Expr.ident (.remainder id)).eval inv st = .done (.int (a % b)))
    (hb : StandsFor inv st e₂ b) (hb0 : b ≠ 0) :
    (floorModExpr (.ident (.remainder id)) e₂).unwrapped inv st = some (a.toInt.fmod b.toInt) := by
  have hrem : (Expr.ident (.remainder id)).unwrapped inv st = some (a.toInt.tmod b.toInt) := by
    rw [Expr.unwrapped, Expr.exactOperand, hr, ← Int32.toInt_mod]
    all_goals simp
  have hfmod := Words.fmod_eq a.toInt b.toInt
  rw [floorModExpr, unwrapped_select (eval_correction (.inl hr) (.inl hr) hb)]
  simp only [Words.correction_iff, Int32.toInt_mod]
  split
  · rename_i hcorrect
    rw [if_pos hcorrect] at hfmod
    rw [unwrapped_add hrem (h₂.unwrapped hb), ← hfmod, ← Words.toInt_fmod hb0, fitSigned_toInt]
  · rename_i hkeep
    rw [hrem, hfmod, if_neg hkeep]

/-! ## Statements that divide -/

/-- Behind the lines `before`, the expression `e` has the floored quotient of the operands as its
value, or for `mod` the remainder.  Nothing else changes, and no word wraps around on the way.  The
operands are words, or addresses of temporaries, which are written as integers of open type. -/
def Floors (op : BinaryOp) (before : Code) (e e₁ e₂ : Expr) : Prop :=
  ∀ (inv : Invocation) (fuel : Nat) (st : Store) (a b : Int32),
    StandsFor inv st e₁ a → StandsFor inv st e₂ b → b ≠ 0 →
    ∃ (q r : Int32) (st' : Store), Floored a b q r ∧
      before.exec inv fuel st = .done (.next, st') ∧ st'.memory = st.memory ∧
      e.eval inv st' = .done (.int (if op = .mod then r else q)) ∧
      (¬ (a = .minValue ∧ b = -1) → e.unwrapped inv st' = some (if op = .mod then r else q).toInt)

/-- The expression for a quotient floors. -/
theorem floors_floorDiv (h₁ : Operand e₁) (h₂ : Operand e₂) :
    Floors .floorDiv .done (floorDivExpr e₁ e₂) e₁ e₂ := by
  intro inv fuel st a b ha hb hb0
  refine ⟨_, _, st, Words.floored_divMod hb0, rfl, rfl, eval_floorDivExpr ha hb hb0, fun h => ?_⟩
  rw [if_neg (by simp), Words.toInt_fdiv hb0 h]
  exact unwrapped_floorDivExpr h₁ h₂ ha hb hb0 h

example (inv : Invocation) (st : Store) :
    (floorDivExpr (.lit (.abstract 7)) (.lit (.abstract 2))).eval inv st = .done (.int 3) := rfl

/-- The expression for a remainder floors. -/
theorem floors_mod (id : StmtId) (h₂ : Operand e₂) :
    Floors .mod (.line (.letBind (.remainder id) (some ⟨.i32, 1⟩) (.binary .rem e₁ e₂)) .done)
      (floorModExpr (.ident (.remainder id)) e₂) e₁ e₂ := by
  intro inv fuel st a b ha hb hb0
  have hrem := ha.rem hb hb0
  -- The truncated remainder is in scope behind the line, and the divisor is what it was.
  have hr : (Expr.ident (.remainder id)).eval inv
      (st.declare (.remainder id) false (.int (a % b))) = .done (.int (a % b)) := by
    simp [Expr.eval, Invocation.builtin?, Store.declare, Locals.get?_cons]
  have hb' := hb
  unfold StandsFor at hb'
  rw [← h₂.eval_declare id (.int (a % b))] at hb'
  refine ⟨_, _, st.declare (.remainder id) false (.int (a % b)), Words.floored_divMod hb0, ?_, rfl,
    eval_floorModExpr hr hb', fun _ => ?_⟩
  · rcases hrem with hrem | ⟨hrem, -⟩ <;>
      simp [Code.exec, Line.exec, hrem, Datum.typed, ofAbstract_toInt, -Int32.toInt_mod]
  · rw [if_pos rfl, Words.toInt_fmod hb0]
    exact unwrapped_floorModExpr h₂ hr hb' hb0

variable {ctx : Context} {values : Values} {s : Stmt} {op : BinaryOp} {x y : StmtId} {v w : Value}

/-- What dividing one integer by another is lowered to. -/
theorem lower_floored (hkind : s.kind = .binary op x y) (hop : op = .floorDiv ∨ op = .mod)
    (hv : ctx.value values s.id x = .ok v) (hw : ctx.value values s.id y = .ok w)
    (hvt : v.type = .ofPrim .i32) (hwt : w.type = .ofPrim .i32) (h₁ : Operand v.expr)
    (h₂ : Operand w.expr) :
    ∃ before e, lower ctx values s = .ok (.bound s.id (.ofPrim .i32) ⟨.i32, 1⟩ e before) ∧
      Floors op before e v.expr w.expr := by
  obtain ⟨e₁, _⟩ := v
  obtain ⟨e₂, _⟩ := w
  cases hvt
  cases hwt
  rcases hop with rfl | rfl
  · refine ⟨_, _, ?_, floors_floorDiv h₁ h₂⟩
    simp only [lower, hkind, lowerBinary, hv, hw, ok_bind]
    rfl
  · refine ⟨_, _, ?_, floors_mod s.id h₂⟩
    simp only [lower, hkind, lowerBinary, hv, hw, ok_bind]
    rfl

section Generated

variable {m : Module} {o : Offload} {signature : Signature} {config : Config}
  {previous : Option Task} {st : State}

/-- **Integer division in shaders is floored.**  Where the generator comes to a floored quotient or
remainder of two integers, be they constants, temporaries or indices of loops, it emits code that
computes just this, for all values that the operands can have there. -/
theorem Reached.floored (h : Reached m o signature config previous st s)
    (hkind : s.kind = .binary op x y) (hop : op = .floorDiv ∨ op = .mod)
    (hv : (contextOf m o signature config previous).value st.values s.id x = .ok v)
    (hw : (contextOf m o signature config previous).value st.values s.id y = .ok w)
    (hvt : v.type = .ofPrim .i32) (hwt : w.type = .ofPrim .i32) :
    Operand v.expr ∧ Operand w.expr ∧ ∃ before e,
      (∀ grid, lower { contextOf m o signature config previous with gridLoop := grid } st.values s =
        .ok (.bound s.id (.ofPrim .i32) ⟨.i32, 1⟩ e before)) ∧
      (∀ p, program m o signature config previous = .ok p → p.shader.body.Contains
        (before ++ .line (.letBind (.temp s.id) (some ⟨.i32, 1⟩) e) .done)) ∧
      Floors op before e v.expr w.expr := by
  have h₁ := h.operands.value hv
  have h₂ := h.operands.value hw
  obtain ⟨before, e, hlower, hfloors⟩ := lower_floored hkind hop hv hw hvt hwt h₁ h₂
  have hgrid : ∀ grid,
      lower { contextOf m o signature config previous with gridLoop := grid } st.values s =
        .ok (.bound s.id (.ofPrim .i32) ⟨.i32, 1⟩ e before) := by
    intro grid
    rw [← hlower]
    simp only [lower, hkind]
    rfl
  refine ⟨h₁, h₂, before, e, hgrid, fun p hp => ?_, hfloors⟩
  exact h.emits (by rw [hkind]; rfl) hgrid hp

/-- A kernel whose parallel loop takes the remainder of -7 by its index. -/
def remainders : List Action :=
  [.create (.const (.i32 (-7))), .create (.const (.i32 3)), .create (.rangeFor (.value 1) false),
    .openGuard .rangeFor 2, .create (.loopIndex 2), .create (.binary .mod 0 3), .closeGuard 0]

/-- In the third iteration the remainder of -7 by 2 is computed, from a constant and an index. -/
theorem Reached.floored_remainders : ∃ session m p st before e,
    Session.run {} remainders = .ok session ∧ session.builder.finish = .ok m ∧
    program m ⟨.rangeFor, [2]⟩ {} {} none = .ok p ∧
    Reached m ⟨.rangeFor, [2]⟩ {} {} none st ⟨4, 1, .binary .mod 0 3⟩ ∧
    p.shader.body.Contains (before ++ .line (.letBind (.temp 4) (some ⟨.i32, 1⟩) e) .done) ∧
    ∃ q r st', Floored (-7) 2 q r ∧
      before.exec ⟨0, 1⟩ 0 ⟨[⟨.gridIndex, true, .int 2⟩], fun _ => []⟩ = .done (.next, st') ∧
      e.eval ⟨0, 1⟩ st' = .done (.int r) := by
  have hkernel : ∃ session m p st, Session.run {} remainders = .ok session ∧
      session.builder.finish = .ok m ∧ program m ⟨.rangeFor, [2]⟩ {} {} none = .ok p ∧
      Reached m ⟨.rangeFor, [2]⟩ {} {} none st ⟨4, 1, .binary .mod 0 3⟩ ∧
      (contextOf m ⟨.rangeFor, [2]⟩ {} {} none).value st.values 4 0 =
        .ok (.ofConst (.i32 (-7))) ∧
      (contextOf m ⟨.rangeFor, [2]⟩ {} {} none).value st.values 4 3 =
        .ok ⟨.ident .gridIndex, .ofPrim .i32⟩ :=
    ⟨_, _, _, _, rfl, rfl, rfl,
      ⟨_, _, _, _, rfl, .rangeFor rfl rfl rfl rfl rfl rfl rfl, .later rfl .here⟩, rfl, rfl⟩
  obtain ⟨session, m, p, st, hrun, hfinish, hp, hreached, hv, hw⟩ := hkernel
  obtain ⟨-, -, before, e, -, hemits, hfloors⟩ :=
    Reached.floored hreached rfl (.inr rfl) hv hw rfl rfl
  obtain ⟨q, r, st', hqr, hexec, -, heval, -⟩ :=
    hfloors ⟨0, 1⟩ 0 ⟨[⟨.gridIndex, true, .int 2⟩], fun _ => []⟩ (-7) 2
      (.inl (eval_ofConst _ _ _)) (.inl rfl) (by decide)
  exact ⟨session, m, p, st, before, e, hrun, hfinish, hp, hreached, hemits p hp, q, r, st', hqr,
    hexec, heval⟩

end Generated

end Codegen

end WgslKernel
