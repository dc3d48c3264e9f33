import WgslKernel.Proofs.Source.Statements

/-!
# Generated expressions fit

What stands for a statement is a name, a literal or a call, and such an operand fits wherever the
grammar asks for one.  Two places ask for a name: the target of an assignment and the vector that a
component is taken from.
-/

namespace WgslKernel

open List

open Source

/-! ## Operands -/

namespace Expr

variable {e a b i : Expr} {es : List Expr} {c : Category} {op : Operator}

/-- **One complete operand**: it fits wherever an operand can stand. -/
theorem fits_of_unary (h : e.fits .unary = true) (hc : c.takes .unary = true) :
    e.fits c = true := by
  have htakes {d : Category} (hd : Category.takes .unary d = true) : c.takes d = true := by
    revert hc hd
    cases c <;> cases d <;> decide
  cases e with
  | ident => exact htakes h
  | binary op =>
    have hop := (Bool.and_eq_true_iff.1 (Bool.and_eq_true_iff.1 h).1).1
    rw [not_takes_operator (by decide)] at hop
    cases hop
  | index =>
    simp only [fits, Bool.and_eq_true] at h ⊢
    exact ⟨⟨htakes h.1.1, h.1.2⟩, h.2⟩
  | lit =>
    simp only [fits, Bool.and_eq_true] at h ⊢
    exact ⟨h.1, htakes h.2⟩
  | _ =>
    simp only [fits, Bool.and_eq_true] at h ⊢
    exact ⟨htakes h.1, h.2⟩

theorem fits_sides (ha : a.fits op.left = true) (hquiet : a.isQuiet = true)
    (hb : b.fits op.right = true) (hquiet' : b.isQuiet = true) (hc : c.takes op.category = true) :
    (binary op a b).fits c = true := by simp [fits, hc, ha, hquiet, hb, hquiet']

/-- An operator whose left operand has one of its own. -/
theorem fits_nested (ha : a.fits op.left = true) (hquiet : a.isQuiet = true)
    (hb : b.fits .unary = true) (hc : c.takes op.category = true) :
    (binary op a b).fits c = true := by
  have hright : op.right.takes .unary = true := by cases op <;> decide
  exact fits_sides ha hquiet (fits_of_unary hb hright) (isQuiet_of_fits hb (by decide)) hc

/-- An operator between two operands. -/
theorem fits_binary (ha : a.fits .unary = true) (hb : b.fits .unary = true)
    (hc : c.takes op.category = true) : (binary op a b).fits c = true := by
  have hleft : op.left.takes .unary = true := by cases op <;> decide
  exact fits_nested (fits_of_unary ha hleft) (isQuiet_of_fits ha (by decide)) hb hc

theorem fits_paren (h : e.fits .expression = true) : (paren e).fits .unary = true :=
  Bool.and_eq_true_iff.2 ⟨by decide, h⟩

theorem fitAll_of_unary (h : ∀ e ∈ es, e.fits .unary = true) : fitAll es = true := by
  induction es with
  | nil => rfl
  | cons e es ih =>
    obtain ⟨he, hes⟩ := forall_mem_cons.1 h
    cases es with
    | nil => exact fits_of_unary he (by decide)
    | cons e' es =>
      simp only [fitAll, Bool.and_eq_true]
      exact ⟨⟨fits_of_unary he (by decide), isQuiet_of_fits he (by decide)⟩, ih hes⟩

theorem fits_call {callee : Callee} (h : ∀ e ∈ es, e.fits .unary = true) :
    (call callee es).fits .unary = true :=
  Bool.and_eq_true_iff.2 ⟨by decide, fitAll_of_unary h⟩

/-- A call takes any expression as its only argument. -/
theorem fits_single {callee : Callee} (h : e.fits .expression = true) :
    (call callee [e]).fits .unary = true := Bool.and_eq_true_iff.2 ⟨by decide, h⟩

theorem fits_lit {l : Literal} (h : l.isWritten = true) : (lit l).fits .unary = true := by
  refine Bool.and_eq_true_iff.2 ⟨h, ?_⟩
  split <;> decide

theorem fits_int (v : Int) : (int v).fits .unary = true := fits_lit rfl

theorem fits_zero (p : Prim) : (zero p).fits .unary = true := by
  cases p <;> exact fits_lit (by decide)

theorem fits_ident (n : Ident) : (ident n).fits .unary = true := rfl

/-- A word of a buffer is a place. -/
theorem fits_word {r : Resource} (h : i.fits .expression = true) (hc : c.takes .singular = true) :
    (word r i).fits c = true := by
  simp +decide [word, fits, isPlace, hc, h]

end Expr

namespace Codegen

open WgslKernel.Expr

variable {ctx : Context} {values : Values} {s : Stmt} {l : Lowering} {v : Value} {e : Expr}

theorem Operand.fits (h : Operand e) : e.fits .unary = true := by
  cases h with
  | temp | counter | gridIndex => rfl
  | const c =>
    cases c with
    | i32 w =>
      simp only [Value.ofConst, ofInt32]
      split
      · exact fits_single (fits_of_unary (fits_lit rfl) (by decide))
      · exact fits_int _
    | f32 bits =>
      simp only [Value.ofConst, ofFloat]
      split
      · rename_i hfinite
        exact fits_lit hfinite
      · exact fits_single (fits_of_unary (fits_lit rfl) (by decide))
  | word k => exact fits_lit rfl

theorem coerce_fits (h : v.expr.fits .unary = true) (p : Prim) (n : Nat) :
    (v.coerce p n).fits .unary = true := by
  have hconverted {t : ShaderType} : (convert t v.expr).fits .unary = true :=
    fits_single (fits_of_unary h (by decide))
  unfold Value.coerce
  dsimp only
  split <;> split
  · exact h
  · exact hconverted
  · exact hconverted
  · exact fits_single (fits_of_unary hconverted (by decide))

theorem toWord_fits (h : e.fits .unary = true) (p : Prim) : (toWord e p).fits .unary = true := by
  cases p with
  | f32 => exact fits_single (fits_of_unary h (by decide))
  | _ => exact h

theorem fromWord_fits (h : e.fits .unary = true) (p : Prim) :
    (fromWord e p).fits .unary = true := by
  cases p with
  | f32 => exact fits_single (fits_of_unary h (by decide))
  | _ => exact h

/-! ## Operators -/

/-- A unary operator fits. -/
theorem unaryExpr_fits {id : StmtId} {op : UnaryOp} {t : ValueType}
    (h : unaryExpr id op v = .ok (t, e)) (hv : v.expr.fits .unary = true) :
    e.fits .expression = true := by
  have hcall {f : Callee} {e : Expr} (he : e.fits .unary = true) :
      (call f [e]).fits .expression = true :=
    fits_of_unary (fits_call (by simpa using he)) (by decide)
  have hexpr : v.expr.fits .expression = true := fits_of_unary hv (by decide)
  have hfloat := coerce_fits hv .f32 v.type.components
  cases op with
  | neg =>
    cases h
    simp +decide [fits, hexpr]
  | round | floor | ceil =>
    simp only [unaryExpr] at h
    split at h
    · cases h
      exact hexpr
    · cases h
      exact hcall hfloat
  | castI32Value | castF32Value =>
    cases h
    exact fits_of_unary (coerce_fits hv _ _) (by decide)
  | inv | rcp =>
    cases h
    exact fits_binary (fits_lit (by decide)) hfloat (by decide)
  | bitNot =>
    obtain ⟨⟨⟩, -, h⟩ := bind_eq_ok.1 h
    cases h
    simp +decide [fits, hv]
  | logicNot =>
    obtain ⟨⟨⟩, -, h⟩ := bind_eq_ok.1 h
    cases h
    refine fits_of_unary (fits_single ?_) (by decide)
    exact fits_binary hv (fits_zero _) (by decide)
  | castI32Bits | castF32Bits | abs | sgn =>
    cases h
    exact hcall hv
  | _ =>
    cases h
    exact hcall hfloat

/-- A comparison with zero. -/
theorem nonzero_fits {r z : Expr} (hr : r.fits .shift = true) (hquiet : r.isQuiet = true)
    (hz : z.fits .unary = true) : (paren (.binary .ne r z)).fits .unary = true :=
  fits_paren (fits_nested hr hquiet hz (by decide))

theorem signsDiffer_fits {a b : Expr} (ha : a.fits .unary = true) (hb : b.fits .unary = true) :
    (paren (signsDiffer a b)).fits .unary = true := by
  have hless {e : Expr} (he : e.fits .unary = true) :
      (paren (.binary .lt e (.int 0))).fits .unary = true :=
    fits_paren (fits_binary he (fits_int 0) (by decide))
  exact fits_paren (fits_binary (hless ha) (hless hb) (by decide))

/-- Two conditions at once. -/
theorem both_fits {a b : Expr} (ha : a.fits .unary = true) (hb : b.fits .unary = true) :
    (Expr.binary .and a b).fits .expression = true := fits_binary ha hb (by decide)

theorem floorDivExpr_fits {a b : Expr} (ha : a.fits .unary = true) (hb : b.fits .unary = true) :
    (floorDivExpr a b).fits .expression = true := by
  have hquotient {c : Category} (hc : c.takes .product = true) :
      (Expr.binary .div a b).fits c = true := fits_binary ha hb hc
  have hless : (Expr.binary .sub (.binary .div a b) (.int 1)).fits .expression = true :=
    fits_nested (hquotient (by decide)) rfl (fits_int 1) (by decide)
  have hremainder : (Expr.binary .rem a b).fits .shift = true := fits_binary ha hb (by decide)
  have hcond := both_fits (nonzero_fits hremainder rfl (fits_int 0)) (signsDiffer_fits ha hb)
  refine Bool.and_eq_true_iff.2 ⟨by decide, ?_⟩
  simp only [fitAll, hquotient (c := .expression) (by decide), hless, hcond]
  rfl

theorem floorModExpr_fits {r b : Expr} (hr : r.fits .unary = true) (hb : b.fits .unary = true) :
    (floorModExpr r b).fits .expression = true := by
  have hquiet := isQuiet_of_fits hr (by decide)
  have hsum : (Expr.binary .add r b).fits .expression = true := fits_binary hr hb (by decide)
  have hcond := both_fits (nonzero_fits (fits_of_unary hr (by decide)) hquiet (fits_int 0))
    (signsDiffer_fits hr hb)
  refine Bool.and_eq_true_iff.2 ⟨by decide, ?_⟩
  simp only [fitAll, fits_of_unary (c := .expression) hr (by decide), hquiet, hsum, hcond]
  rfl

/-- A binary operator and the lines ahead of it. -/
theorem binaryExpr_fits {id : StmtId} {op : BinaryOp} {a b : Value} {n : Nat} {t : ValueType}
    {before : Code} (h : binaryExpr id op a b n = .ok (t, e, before))
    (ha : a.expr.fits .unary = true) (hb : b.expr.fits .unary = true) :
    e.fits .expression = true ∧ ∀ l ∈ before.lines, l.Fits := by
  have hdone {e : Expr} (he : e.fits .expression = true) :
      e.fits .expression = true ∧ ∀ l ∈ Code.done.lines, l.Fits := ⟨he, forall_mem_nil _⟩
  have hunary {e : Expr} (he : e.fits .unary = true) :
      e.fits .expression = true ∧ ∀ l ∈ Code.done.lines, l.Fits :=
    hdone (fits_of_unary he (by decide))
  have hca := coerce_fits ha
  have hcb := coerce_fits hb
  have hbinary {o : Operator} (p : Prim) :
      (Expr.binary o (a.coerce p n) (b.coerce p n)).fits .expression = true :=
    fits_binary (hca p n) (hcb p n) (by cases o <;> decide)
  have hcall (f : Func) (p : Prim) : (func f [a.coerce p n, b.coerce p n]).fits .unary = true :=
    fits_call (by simp [hca, hcb])
  have hword {x : Value} (hx : ∀ p n, (x.coerce p n).fits .unary = true) (p : Prim) :
      (convert ⟨.u32, n⟩ (x.coerce p n)).fits .unary = true :=
    fits_single (fits_of_unary (hx p n) (by decide))
  have hnonzero {x : Value} (hx : x.expr.fits .unary = true) : x.isNonzero.fits .unary = true :=
    nonzero_fits (fits_of_unary hx (by decide)) (isQuiet_of_fits hx (by decide)) (fits_zero _)
  cases op with
  | floorDiv =>
    simp only [binaryExpr] at h
    split at h
    · cases h
      exact hunary (fits_single (hbinary _))
    · obtain ⟨⟨⟩, -, h⟩ := bind_eq_ok.1 h
      cases h
      exact hdone (floorDivExpr_fits (hca _ _) (hcb _ _))
  | mod =>
    simp only [binaryExpr] at h
    split at h
    · cases h
      have hfloor : (func .floor [.binary .div (a.coerce (joinPrim a.type.prim b.type.prim) n)
          (b.coerce (joinPrim a.type.prim b.type.prim) n)]).fits .unary = true :=
        fits_single (hbinary _)
      exact hdone (fits_sides (fits_of_unary (hca _ _) (by decide))
        (isQuiet_of_fits (hca _ _) (by decide)) (fits_binary (hcb _ _) hfloor (by decide)) rfl
        (by decide))
    · obtain ⟨⟨⟩, -, h⟩ := bind_eq_ok.1 h
      cases h
      refine ⟨floorModExpr_fits rfl (hcb _ _), fun l hl => ?_⟩
      obtain rfl := mem_singleton.1 hl
      exact Line.fits_letBind.2 (hbinary _)
  | pow =>
    simp only [binaryExpr] at h
    split at h
    · cases h
      exact hunary (hcall .pow _)
    · cases h
      exact hunary (fits_single (fits_of_unary
        (fits_single (fits_of_unary (hcall .pow .f32) (by decide))) (by decide)))
  | logicalOr | logicalAnd =>
    obtain ⟨⟨⟩, -, h⟩ := bind_eq_ok.1 h
    cases h
    exact hunary (fits_single (fits_binary (hnonzero ha) (hnonzero hb) (by decide)))
  | bitShl | bitSar =>
    cases h
    exact hdone (fits_binary (hca _ _) (hword hcb _) (by decide))
  | bitShr =>
    cases h
    exact hunary (fits_single (fits_binary (hword hca _) (hword hcb _) (by decide)))
  | max | min | atan2 =>
    cases h
    exact hunary (hcall _ _)
  | cmpLt | cmpLe | cmpGt | cmpGe | cmpEq | cmpNe =>
    cases h
    exact hunary (fits_single (hbinary _))
  | mul | add | sub | div | trueDiv | bitAnd | bitOr | bitXor =>
    cases h
    exact hdone (hbinary _)

/-! ## Places and operands -/

section Operands

variable {id : StmtId} {xs : List StmtId} {cs : List Value}

theorem floatOperand_fits {x : StmtId}
    (hvalues : ∀ x v, ctx.value values id x = .ok v → v.expr.fits .unary = true)
    (h : floatOperand ctx values id x = .ok e) : e.fits .unary = true := by
  obtain ⟨v, hv, h⟩ := bind_eq_ok.1 h
  obtain ⟨⟨⟩, -, h⟩ := bind_eq_ok.1 h
  cases h
  exact coerce_fits (hvalues x v (scalar_eq_ok.1 hv).1) _ _

theorem floatVector_fits {q : Quad}
    (hvalues : ∀ x v, ctx.value values id x = .ok v → v.expr.fits .unary = true)
    (h : floatVector ctx values id q = .ok e) : e.fits .unary = true := by
  obtain ⟨es, hes, h⟩ := bind_eq_ok.1 h
  cases h
  refine fits_call fun e he => ?_
  obtain ⟨x, -, hx⟩ := exists_of_mem_mapM hes he
  exact floatOperand_fits hvalues hx

theorem vectorOf_fits (h : ∀ v ∈ cs, v.expr.fits .unary = true) (p : Prim) :
    (vectorOf cs p).fits .unary = true := by
  have hparts : ∀ e ∈ cs.map fun v => v.coerce p 1, e.fits .unary = true := by
    intro e he
    obtain ⟨v, hv, rfl⟩ := mem_map.1 he
    exact coerce_fits (h v hv) p 1
  unfold vectorOf
  split
  · rename_i e he
    exact hparts e (he ▸ mem_cons_self)
  · exact fits_call hparts

/-- The terms of an index are products at most. -/
theorem indexTerms_fits {strides : List Nat} {terms : List Expr}
    (hvalues : ∀ x v, ctx.value values id x = .ok v → v.expr.fits .unary = true)
    (h : indexTerms ctx values id xs strides = .ok terms) :
    ∀ e ∈ terms, e.isQuiet = true ∧ ∀ c : Category, c.takes .product = true → e.fits c = true := by
  induction xs generalizing strides terms with
  | nil =>
    cases h
    exact forall_mem_nil _
  | cons x xs ih =>
    cases strides with
    | nil =>
      cases h
      exact forall_mem_nil _
    | cons stride strides =>
      obtain ⟨v, hv, h⟩ := bind_eq_ok.1 h
      split at h
      · obtain ⟨tail, htail, h⟩ := bind_eq_ok.1 h
        cases h
        have hx := hvalues x v hv
        refine forall_mem_cons.2 ⟨?_, ih htail⟩
        unfold strideTerm
        split
        · refine ⟨isQuiet_of_fits hx (by decide), fun c hc => fits_of_unary hx ?_⟩
          revert hc
          cases c <;> decide
        · exact ⟨rfl, fun c hc => fits_binary hx (fits_int _) hc⟩
      · simp at h

theorem sumTerms_fits {terms : List Expr} {base : Nat} (h : ∀ e ∈ terms, e.isQuiet = true ∧
      ∀ c : Category, c.takes .product = true → e.fits c = true) :
    (sumTerms terms base).fits .expression = true := by
  -- What is added up so far can stand left of another plus sign.
  have hsum {ts : List Expr} {t : Expr}
      (ht : t.isQuiet = true ∧ ∀ c : Category, c.takes .sum = true → t.fits c = true)
      (hts : ∀ e ∈ ts, e.isQuiet = true ∧
        ∀ c : Category, c.takes .product = true → e.fits c = true) :
      (ts.foldl (.binary .add) t).isQuiet = true ∧
        ∀ c : Category, c.takes .sum = true → (ts.foldl (.binary .add) t).fits c = true := by
    induction ts generalizing t with
    | nil => exact ht
    | cons e es ih =>
      obtain ⟨he, hes⟩ := forall_mem_cons.1 hts
      refine ih ⟨rfl, fun c hc => ?_⟩ hes
      exact fits_sides (ht.2 _ (by decide)) ht.1 (he.2 _ (by decide)) he.1 hc
  cases terms with
  | nil => exact fits_of_unary (fits_int _) (by decide)
  | cons t ts =>
    obtain ⟨ht, hts⟩ := forall_mem_cons.1 h
    have hall := hsum ⟨ht.1, fun c hc => ht.2 c (by revert hc; cases c <;> decide)⟩ hts
    unfold sumTerms
    dsimp only
    split
    · exact hall.2 _ (by decide)
    · exact fits_nested (hall.2 _ (by decide)) hall.1 (fits_int _) (by decide)

theorem returnLines_fits {words : List Expr} {k : Nat}
    (hvalues : ∀ x v, ctx.value values id x = .ok v → v.expr.fits .unary = true)
    (h : operandWords ctx values id xs = .ok words) : ∀ l ∈ returnLines k words, l.Fits := by
  induction xs generalizing words k with
  | nil =>
    cases h
    exact forall_mem_nil _
  | cons x xs ih =>
    obtain ⟨v, hv, h⟩ := bind_eq_ok.1 h
    obtain ⟨⟨⟩, -, h⟩ := bind_eq_ok.1 h
    obtain ⟨tail, htail, h⟩ := bind_eq_ok.1 h
    cases h
    have hx := hvalues x v (scalar_eq_ok.1 hv).1
    refine forall_mem_cons.2 ⟨Line.fits_assign.2 ⟨?_, ?_⟩, ih htail⟩
    · exact fits_word (fits_of_unary (fits_lit rfl) (by decide)) (by decide)
    · exact fits_of_unary (toWord_fits hx _) (by decide)

/-- The address of the word that an atomic statement works on. -/
theorem atomicTarget_fits {ptr : StmtId} {write : Bool} {target : AtomicTarget}
    (hvalues : ∀ x v, ctx.value values id x = .ok v → v.expr.fits .unary = true)
    (h : atomicTarget ctx values id ptr write = .ok target) :
    (address target.word).fits .unary = true := by
  obtain ⟨v, hv, hword, -⟩ := atomicTarget_eq_ok h
  rw [hword]
  refine Bool.and_eq_true_iff.2 ⟨by decide, ?_⟩
  exact fits_word (fits_of_unary (hvalues ptr v hv) (by decide)) (by decide)

/-- The loop of an update fits. -/
theorem exchangeLoop_fits {op : AtomicOp} {target operand : Expr}
    (htarget : (address target).fits .unary = true) (hoperand : operand.fits .unary = true) :
    ∀ l ∈ (exchangeLoop id op target operand).lines, l.Fits := by
  have hcurrent : (Expr.bitcast ⟨.f32, 1⟩ (.ident (.seen id))).fits .unary = true := rfl
  have hcombine : (combine op (.bitcast ⟨.f32, 1⟩ (.ident (.seen id))) operand).fits .expression =
      true := by
    cases op with
    | add | sub => exact fits_binary hcurrent hoperand (by decide)
    | max | min =>
      exact fits_of_unary (fits_call (by simp [hcurrent, hoperand])) (by decide)
  have hload : (func .atomicLoad [.address target]).fits .expression = true :=
    fits_of_unary (fits_call (by simp [htarget])) (by decide)
  have hexchange : (func .atomicCompareExchangeWeak
      [.address target, .ident (.seen id), .ident (.wanted id)]).fits .expression = true :=
    fits_of_unary (fits_call (by simp [htarget, fits_ident])) (by decide)
  have hwanted : (Expr.bitcast ⟨.i32, 1⟩ (combine op (.bitcast ⟨.f32, 1⟩ (.ident (.seen id)))
      operand)).fits .expression = true := fits_of_unary (fits_single hcombine) (by decide)
  intro l hl
  simp only [exchangeLoop, Code.lines, append_nil, mem_cons, not_mem_nil, or_false,
    cons_append, nil_append] at hl
  rcases hl with rfl | rfl | rfl | rfl | rfl | rfl
  · exact Line.fits_declare.2 hload
  · exact Line.fits_letBind.2 hwanted
  · exact Line.fits_letBind.2 hexchange
  · exact Line.fits_perform.2 rfl
  · exact forall_mem_nil _
  · exact Line.fits_assign.2 ⟨rfl, rfl⟩

end Operands

/-! ## Entries of the table -/

/-- An entry of the table is an operand.  It is a name, unless it is a scalar and no variable. -/
def Fitting (m : Module) (x : StmtId) (v : Value) : Prop :=
  Operand v.expr ∧ ((∃ n, v.expr = .ident n) ∨ v.type.isScalar = true ∧ ¬ m.Plays x .alloca)

theorem not_plays_alloca {m : Module} {x : StmtId} {kind : Kind} (hkind : m.kind? x = some kind)
    (hne : ∀ ty, kind ≠ .alloca ty) : ¬ m.Plays x .alloca := fun hplays => by
  obtain ⟨ty, hx⟩ := hplays.alloca
  rw [hkind] at hx
  exact hne ty (Option.some.inj hx)

theorem fitting_const {m : Module} {x : StmtId} {c : Const} (hx : m.kind? x = some (.const c)) :
    Fitting m x (.ofConst c) := by
  refine ⟨.const c, .inr ⟨?_, not_plays_alloca hx fun _ => by simp⟩⟩
  cases c <;> rfl

/-- What stands for a statement fits. -/
theorem yields_fitting {o : Outline}
    (hfound : ∀ s ∈ o.stmts, ctx.module.stmts[s.id]? = some s) :
    Yields ctx o (Fitting ctx.module) := by
  intro s hs values l v hl hv
  have hkind? : ctx.module.kind? s.id = some s.kind := by
    rw [Module.kind?, hfound s hs, Option.map_some]
  have hoperand := (hl.named hv).operand
  cases hl with
  | const hkind =>
    cases hv
    exact fitting_const (hkind ▸ hkind?)
  | temporary hkind =>
    cases hv
    rw [hkind] at hkind?
    exact ⟨hoperand, .inr ⟨rfl, not_plays_alloca hkind? fun _ => by simp⟩⟩
  | sample _ _ hl | sampleLod _ _ _ hl =>
    obtain ⟨_, _, _, -, -, rfl⟩ := sampleTexture_eq_ok hl
    cases hv
    exact ⟨hoperand, .inl ⟨_, rfl⟩⟩
  | _ => cases hv <;> exact ⟨hoperand, .inl ⟨_, rfl⟩⟩

theorem Values.Entries.fitting (h : values.Entries (Fitting ctx.module)) {user x : StmtId}
    (hv : ctx.value values user x = .ok v) : Fitting ctx.module x v :=
  h.value (fun _ => fitting_const) hv

theorem sampleTexture_fits {id : StmtId} {t : Texture} {cs : List Value} {level : Option Value}
    (hcs : ∀ v ∈ cs, v.expr.fits .unary = true)
    (hlevel : ∀ v ∈ level, v.expr.fits .unary = true)
    (h : sampleTexture ctx id t cs level = .ok l) : ∀ line ∈ l.code.lines, line.Fits := by
  obtain ⟨use, -, h⟩ := bind_eq_ok.1 h
  obtain ⟨type, -, rfl⟩ := define_eq_ok.1 h
  have hplace := vectorOf_fits hcs .f32
  intro line hline
  obtain rfl := mem_singleton.1 hline
  refine Line.fits_letBind.2 ?_
  split
  · rename_i v
    exact fits_of_unary (fits_call (by simp [fits_ident, hplace, coerce_fits, hlevel])) (by decide)
  · split
    · exact fits_of_unary (fits_call (by simp [fits_ident, hplace])) (by decide)
    · exact fits_of_unary (fits_call (by simp [fits_ident, hplace, fits_zero])) (by decide)

/-- **The code of a statement fits.** -/
theorem Lowers.fits (h : Lowers ctx values s l) (hvalues : values.Entries (Fitting ctx.module))
    (hadmits : ctx.module.Admits s.block s.kind) : ∀ line ∈ l.code.lines, line.Fits := by
  have hunary {x : StmtId} {v : Value} (hv : ctx.value values s.id x = .ok v) :
      v.expr.fits .unary = true := (hvalues.fitting hv).1.fits
  have hvalue (x : StmtId) (v : Value) (hv : ctx.value values s.id x = .ok v) :
      v.expr.fits .unary = true := hunary hv
  have hscalars {xs : List StmtId} {cs : List Value}
      (hcs : xs.mapM (ctx.scalar values s.id) = .ok cs) : ∀ v ∈ cs, v.expr.fits .unary = true := by
    intro v hv
    obtain ⟨x, -, hx⟩ := exists_of_mem_mapM hcs hv
    exact hunary (scalar_eq_ok.1 hx).1
  have hexpr {e : Expr} (he : e.fits .unary = true) : e.fits .expression = true :=
    fits_of_unary he (by decide)
  have hline {line : Line} (hfits : line.Fits) : ∀ l ∈ (Code.line line .done).lines, l.Fits := by
    simpa [Code.lines] using hfits
  have hlet {type : ShaderType} {e : Expr} (he : e.fits .unary = true) :
      ∀ l ∈ (Code.line (.letBind (.temp s.id) (some type) e) .done).lines, l.Fits :=
    hline (Line.fits_letBind.2 (hexpr he))
  have hword {r : Resource} {i : Expr} (hi : i.fits .unary = true) :
      (word r i).fits .unary = true := fits_word (hexpr hi) (by decide)
  have hstore {r : Resource} {i e : Expr} (hi : i.fits .unary = true) (he : e.fits .unary = true) :
      ∀ l ∈ (Code.line (.assign (.word r i) e) .done).lines, l.Fits :=
    hline (Line.fits_assign.2 ⟨fits_word (hexpr hi) (by decide), hexpr he⟩)
  have houtput {name : MemberName} {e : Expr} (he : e.fits .unary = true) :
      ∀ l ∈ (Code.line (.assign (.output name) e) .done).lines, l.Fits :=
    hline (Line.fits_assign.2 ⟨rfl, hexpr he⟩)
  cases h with
  | const | gridIndex | counter | temporary => exact forall_mem_nil _
  | exitLoop | nextIteration | discard | alloca => exact hline (forall_mem_nil _)
  | argLoad => exact hlet (fromWord_fits (hword (fits_lit rfl)) _)
  | rand _ he => rcases he with rfl | rfl <;> exact hlet rfl
  | unary _ hv _ he => exact hline (Line.fits_letBind.2 (unaryExpr_fits he (hunary hv)))
  | binary _ ha hb _ _ he =>
    obtain ⟨he, hbefore⟩ := binaryExpr_fits he (hunary ha) (hunary hb)
    simp only [Lowering.bound, Code.lines_append, forall_mem_append]
    exact ⟨hbefore, hline (Line.fits_letBind.2 he)⟩
  | localLoad _ hvar => exact hlet (hunary hvar)
  | @localStore ptr _ var v hkind hvar hv =>
    -- A place that is assigned to is the name of a variable.
    rw [hkind] at hadmits
    rcases (hvalues.fitting hvar).2 with ⟨n, hn⟩ | ⟨-, hnot⟩
    · exact hline (Line.fits_assign.2 ⟨hn ▸ rfl, hexpr (hunary hv)⟩)
    · exact absurd hadmits hnot
  | globalPtr _ _ hterms =>
    exact hline (Line.fits_letBind.2 (sumTerms_fits (indexTerms_fits hvalue hterms)))
  | globalLoad _ _ hindex => exact hlet (fromWord_fits (hword (hunary hindex)) _)
  | globalStore _ _ _ hv _ hindex => exact hstore (hunary hindex) (toWord_fits (hunary hv) _)
  | temporaryLoad _ hslot =>
    exact hlet (fromWord_fits (hword (hunary (temporarySlot_eq_ok hslot))) _)
  | temporaryStore _ _ hslot hv =>
    exact hstore (hunary (temporarySlot_eq_ok hslot)) (toWord_fits (hunary hv) _)
  | atomicInt _ htarget hv =>
    exact hlet (fits_call (by simp [atomicTarget_fits hvalue htarget, hunary hv]))
  | atomicFloat _ htarget hv =>
    simp only [Lowering.bound, Code.lines_append, forall_mem_append]
    exact ⟨exchangeLoop_fits (atomicTarget_fits hvalue htarget) (hunary hv), hlet rfl⟩
  | atomicLoad _ htarget =>
    exact hlet (fromWord_fits (fits_call (by simp [atomicTarget_fits hvalue htarget])) _)
  | atomicStore _ htarget hv =>
    refine hline (Line.fits_perform.2 (hexpr (fits_call ?_)))
    simp [atomicTarget_fits hvalue htarget, toWord_fits (hunary hv)]
  | vertexInput | fragmentInput | fragCoord => exact hlet rfl
  | vertexIndex | instanceIndex => exact hlet rfl
  | vertexOutput _ _ hv => exact houtput (hunary hv)
  | position _ _ he | color _ _ he => exact houtput (floatVector_fits hvalue he)
  | fragDepth _ _ he => exact houtput (floatOperand_fits hvalue he)
  | derivative _ _ hv => exact hlet (fits_single (hexpr (coerce_fits (hunary hv) _ _)))
  | sample _ hcoords hl => exact sampleTexture_fits (hscalars hcoords) (fun _ h => by cases h) hl
  | sampleLod _ hcoords hv hl =>
    refine sampleTexture_fits (hscalars hcoords) (fun w hw => ?_) hl
    cases hw
    exact hunary (scalar_eq_ok.1 hv).1
  | textureLoad _ hcoords =>
    exact hlet (fits_call (by simp [fits_ident, fits_int, vectorOf_fits (hscalars hcoords)]))
  | textureStore _ hcoords _ he =>
    refine hline (Line.fits_perform.2 (hexpr (fits_call ?_)))
    simp [fits_ident, vectorOf_fits (hscalars hcoords), floatVector_fits hvalue he]
  | @extract _ _ v _ _ _ hv hin =>
    -- Components are taken from vectors, and those have names.
    rcases (hvalues.fitting hv).2 with ⟨n, hn⟩ | ⟨hscalar, -⟩
    · exact hlet (hn ▸ rfl)
    · exact absurd (.inr hscalar) hin
  | ret _ _ _ hwords =>
    rw [Code.lines_ofLines]
    exact returnLines_fits hvalue hwords

/-! ## Walks -/

theorem branchCondition_fits {id cond : StmtId} (hvalues : values.Entries (Fitting ctx.module))
    (h : branchCondition ctx values id cond = .ok e) : e.fits .expression = true := by
  obtain ⟨v, hv, h⟩ := bind_eq_ok.1 h
  cases h
  exact fits_binary (hvalues.fitting (scalar_eq_ok.1 hv).1).1.fits (fits_zero _) (by decide)

theorem loopBound_fits {id : StmtId} {bound : RangeBound}
    (hvalues : values.Entries (Fitting ctx.module)) (h : loopBound ctx values id bound = .ok e) :
    e.fits .unary = true := by
  rcases loopBound_eq_ok h with ⟨f, n, -, -, rfl⟩ | ⟨x, v, -, hv, -, rfl⟩
  · exact fits_int _
  · exact (hvalues.fitting hv).1.fits

/-- The header of a loop whose parts are operands. -/
theorem header_fits {header : LoopHeader} {body rest : Code}
    (hstart : header.start.fits .unary = true) (hstop : header.stop.fits .unary = true)
    (hstep : header.step.fits .unary = true) (hbody : ∀ l ∈ body.lines, l.Fits)
    (hrest : ∀ l ∈ rest.lines, l.Fits) : ∀ l ∈ (Code.countLoop header body rest).lines, l.Fits := by
  simp only [Code.lines, forall_mem_cons, forall_mem_append, LoopHeader.first,
    LoopHeader.test, LoopHeader.update, Line.fits_declare, Line.fits_perform, Line.fits_assign]
  exact ⟨fits_of_unary hstart (by decide), fits_binary rfl hstop (by decide),
    ⟨rfl, fits_binary rfl hstep (by decide)⟩, hbody, hrest⟩

/-- **The code of a walk fits.** -/
theorem Walks.fits {st st' : State} {o : Outline} {code : Code} (h : Walks ctx st o st' code)
    (hfound : ∀ s ∈ o.stmts, ctx.module.stmts[s.id]? = some s ∧ ctx.module.Admits s.block s.kind)
    (hst : st.values.Entries (Fitting ctx.module)) : ∀ l ∈ code.lines, l.Fits := by
  have hyields {o : Outline} (hfound : ∀ s ∈ o.stmts, ctx.module.stmts[s.id]? = some s ∧
      ctx.module.Admits s.block s.kind) : Yields ctx o (Fitting ctx.module) :=
    yields_fitting fun s hs => (hfound s hs).1
  induction h with
  | nil => exact forall_mem_nil _
  | @branch _ _ _ _ s first second rest _ _ _ c yes no tail _ hcond hfirst hsecond hrest ihFirst
      ihSecond ihRest =>
    obtain ⟨-, h₁, h₂, h₃⟩ := Outline.forall_stmts_cons.1 hfound
    have hst₁ := hfirst.entries (hyields h₁) hst
    have hst₂ := hsecond.entries (hyields h₂) hst₁
    have hc := Line.fits_perform.2 (branchCondition_fits hst hcond)
    simp only [branchCode_lines hsecond.done_of_isEmpty, forall_mem_cons, forall_mem_append]
    exact ⟨hc, ihFirst h₁ hst, ihSecond h₂ hst₁, ihRest h₃ hst₂⟩
  | loop _ hfirst hrest ihFirst ihRest =>
    obtain ⟨-, h₁, -, h₃⟩ := Outline.forall_stmts_cons.1 hfound
    exact forall_mem_append.2
      ⟨ihFirst h₁ hst, ihRest h₃ (hfirst.entries (hyields h₁) hst)⟩
  | count _ hstop hfirst hrest ihFirst ihRest =>
    obtain ⟨-, h₁, -, h₃⟩ := Outline.forall_stmts_cons.1 hfound
    exact header_fits (fits_int _) (loopBound_fits hst hstop) (fits_int _) (ihFirst h₁ hst)
      (ihRest h₃ (hfirst.entries (hyields h₁) hst))
  | leaf hkind hlower happly hrest ihRest =>
    obtain ⟨⟨hs, hadmits⟩, -, -, h₃⟩ := Outline.forall_stmts_cons.1 hfound
    have hlowers := lowers_of_lower hkind hlower
    rw [Code.lines_append]
    refine forall_mem_append.2 ⟨hlowers.fits hst hadmits, ihRest h₃ ?_⟩
    exact apply_entries hst
      (fun v => hyields hfound _ (by simp [Outline.stmts]) _ _ v hlowers) happly

end Codegen

end WgslKernel
