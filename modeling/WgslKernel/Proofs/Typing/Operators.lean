import WgslKernel.Proofs.Typing.Shapes
import WgslKernel.Proofs.Typing.Types

/-!
# Types of generated expressions

The expression that stands for a value is of the value's type.  The tables of unary and binary
operators are gone through once each.
-/

namespace WgslKernel

/-- The type of a value, in a shader. -/
def ValueType.ty (t : ValueType) : Ty := .data ⟨t.prim.toScalar, t.components⟩

/-- A scalar can be divided by a vector. -/
theorem Operator.onData_div_spread (s : Scalar) (n : Nat) :
    div.onData ⟨s, 1⟩ ⟨s, n⟩ = some (.data ⟨s, n⟩) := by
  by_cases hn : n = 1
  · subst hn
    simp [onData]
  · simp [onData, hn, Ne.symm hn]

namespace HasType

variable {Γ : Env} {e e₁ e₂ : Expr} {a t : ShaderType}

/-! ## Constants and conversions -/

theorem int (v : Int) : HasType Γ (.int v) .i32 := .lit rfl

theorem uint (v : Nat) : HasType Γ (.lit (.uint v)) .u32 := .lit rfl

theorem zero (p : Prim) : HasType Γ (.zero p) (.data ⟨p.toScalar, 1⟩) := by
  cases p <;> exact .lit rfl

theorem convert (h : HasType Γ e (.data a)) (ha : a.width = t.width ∨ a = ⟨t.scalar, 1⟩) :
    HasType Γ (.convert t e) (.data t) :=
  h.call_one (if_pos ha)

theorem convertBool (h : HasType Γ e (.bool t.width)) : HasType Γ (.convert t e) (.data t) :=
  h.call_one (if_pos rfl)

theorem bitcast (h : HasType Γ e (.data a)) (ha : a.width = t.width) :
    HasType Γ (.bitcast t e) (.data t) :=
  h.call_one (if_pos ha)

theorem ofInt32 (v : Int32) : HasType Γ (.ofInt32 v) .i32 := by
  unfold Expr.ofInt32
  split
  · exact convert (a := ⟨.i32, 1⟩) (.lit rfl) (.inl rfl)
  · exact .int _

theorem ofFloat (bits : UInt32) : HasType Γ (.ofFloat bits) .f32 := by
  unfold Expr.ofFloat
  split
  · exact .lit rfl
  · exact bitcast (a := ⟨.u32, 1⟩) (.lit rfl) rfl

/-- Arithmetic stays in its type. -/
theorem arith {op : Operator} (h₁ : HasType Γ e₁ (.data t)) (h₂ : HasType Γ e₂ (.data t))
    (hop : op.onData t t = some (.data t)) : HasType Γ (.binary op e₁ e₂) (.data t) :=
  .binary h₁ h₂ hop

theorem compare {op : Operator} (h₁ : HasType Γ e₁ (.data t)) (h₂ : HasType Γ e₂ (.data t))
    (hop : op.onData t t = some (.bool t.width)) : HasType Γ (.binary op e₁ e₂) (.bool t.width) :=
  .binary h₁ h₂ hop

theorem both (h₁ : HasType Γ e₁ (.bool 1)) (h₂ : HasType Γ e₂ (.bool 1)) :
    HasType Γ (.binary .and e₁ e₂) (.bool 1) := .binary h₁ h₂ rfl

/-- A word of a buffer, at an index that is an integer. -/
theorem word {r : Resource} {i : Expr} {atomic w : Bool} {t : Ty}
    (hr : (.resource r, ⟨.buffer atomic, w⟩) ∈ Γ) (hi : HasType Γ i .i32)
    (ht : (Ty.words atomic).element? = some t) : HasType Γ (.word r i) t :=
  .index (.select (.ident hr) rfl) hi (by decide) ht

theorem wordAddress {r : Resource} {i : Expr} (hr : (.resource r, ⟨.buffer true, true⟩) ∈ Γ)
    (hi : HasType Γ i .i32) : HasType Γ (.address (.word r i)) .pointer :=
  .address (word hr hi rfl) rfl hr

end HasType

theorem Assignable.word {Γ : Env} {r : Resource} {i : Expr}
    (hr : (.resource r, ⟨.buffer false, true⟩) ∈ Γ) (hi : HasType Γ i .i32) :
    Assignable Γ (.word r i) .i32 :=
  ⟨.word hr hi rfl, _, _, rfl, hr⟩

namespace Codegen

variable {Γ : Env} {id : StmtId} {v a b : Value} {t : ValueType} {e : Expr}

/-! ## Values -/

/-- The expression of a value is of its type. -/
def Value.Typed (Γ : Env) (v : Value) : Prop := HasType Γ v.expr v.type.ty

theorem Value.Typed.mono {Γ' : Env} (h : v.Typed Γ) (hsub : Γ ⊆ Γ') : v.Typed Γ' :=
  HasType.mono h hsub

/-- Constants are of their type. -/
theorem Value.typed_ofConst (c : Const) : (Value.ofConst c).Typed Γ := by
  cases c with
  | i32 n => exact HasType.ofInt32 n
  | f32 bits => exact HasType.ofFloat bits

/-- Coercion gives a value the type it is coerced to. -/
theorem Value.Typed.coerce (h : v.Typed Γ) (p : Prim) {n : Nat}
    (hn : v.type.components = n ∨ v.type.components = 1) :
    HasType Γ (v.coerce p n) (.data ⟨p.toScalar, n⟩) := by
  have hconverted : HasType Γ (if v.type.prim = p then v.expr
      else Expr.convert ⟨p.toScalar, v.type.components⟩ v.expr)
      (.data ⟨p.toScalar, v.type.components⟩) := by
    split
    · rename_i hp
      exact hp ▸ h
    · exact HasType.convert h (.inl rfl)
  unfold Value.coerce
  dsimp only
  split
  · rename_i hc
    exact hc ▸ hconverted
  · rename_i hc
    exact hconverted.convert (.inr (by rw [hn.resolve_left hc]))

theorem hasType_toWord {p : Prim} (h : HasType Γ e (.data ⟨p.toScalar, 1⟩)) :
    HasType Γ (toWord e p) .i32 := by
  cases p with
  | f32 => exact h.bitcast rfl
  | _ => exact h

theorem hasType_fromWord {p : Prim} (h : HasType Γ e .i32) :
    HasType Γ (fromWord e p) (.data ⟨p.toScalar, 1⟩) := by
  cases p with
  | f32 => exact h.bitcast rfl
  | _ => exact h

/-- A scalar is compared to the zero of its own kind. -/
theorem Value.Typed.compareZero {op : Operator} (h : v.Typed Γ) (hscalar : v.type.components = 1)
    (hop : op = .eq ∨ op = .ne) :
    HasType Γ (.binary op v.expr (.zero v.type.prim)) (.bool 1) := by
  rw [Value.Typed, ValueType.ty, hscalar] at h
  refine h.compare (.zero _) ?_
  rcases hop with rfl | rfl <;> exact if_pos rfl

theorem requireInteger_eq_ok {op : String} :
    requireInteger id op v = .ok () ↔ v.type.prim = .i32 := by
  unfold requireInteger
  split <;> simp_all

theorem requireScalar_eq_ok {op : String} :
    requireScalar id op v = .ok () ↔ v.type.components = 1 := by
  unfold requireScalar
  rw [← ValueType.isScalar_iff]
  split <;> simp_all

/-- **A unary operator returns what it says**, for every operator and both kinds of number. -/
theorem unaryExpr_typed {op : UnaryOp} (hv : v.Typed Γ) (h : unaryExpr id op v = .ok (t, e)) :
    HasType Γ e t.ty := by
  have hfloat : HasType Γ (v.coerce .f32 v.type.components) (.data ⟨.f32, v.type.components⟩) :=
    hv.coerce .f32 (.inl rfl)
  have hsigned : v.type.prim.toScalar ≠ .u32 := by
    cases v.type.prim <;> decide
  cases op with
  | neg =>
    cases h
    exact .neg (.paren hv) hsigned
  | round | floor | ceil =>
    unfold unaryExpr at h
    dsimp only at h
    split at h
    · cases h
      exact hv
    · cases h
      exact hfloat.call_one rfl
  | castI32Value =>
    cases h
    exact hv.coerce .i32 (.inl rfl)
  | castF32Value =>
    cases h
    exact hfloat
  | castI32Bits | castF32Bits =>
    cases h
    exact HasType.bitcast hv rfl
  | abs =>
    cases h
    exact HasType.call_one hv rfl
  | sgn =>
    cases h
    exact HasType.call_one hv (if_neg hsigned)
  | sqrt | sin | asin | cos | acos | tan | tanh | exp | log | rsqrt =>
    cases h
    exact hfloat.call_one rfl
  | inv | rcp =>
    cases h
    have hone : HasType Γ (.lit (.float 0x3f800000)) .f32 := .lit rfl
    exact .binary hone hfloat (Operator.onData_div_spread .f32 _)
  | bitNot =>
    obtain ⟨⟨⟩, hint, h⟩ := bind_eq_ok.1 h
    cases h
    exact .bitNot hv (by simp [requireInteger_eq_ok.1 hint, Prim.toScalar])
  | logicNot =>
    obtain ⟨⟨⟩, hscalar, h⟩ := bind_eq_ok.1 h
    cases h
    have hone := requireScalar_eq_ok.1 hscalar
    rw [ValueType.ty, hone]
    exact (hv.compareZero hone (.inl rfl)).convertBool

/-! ## Binary operators -/

/-- Both operands are of the common component count, or scalars. -/
theorem joinComponents_cases {op : BinaryOp} {a b : ValueType} {n : Nat}
    (h : joinComponents id op a b = .ok n) :
    a.components = n ∧ (b.components = n ∨ b.components = 1) ∨
      a.components = 1 ∧ b.components = n := by
  unfold joinComponents at h
  split at h
  · rename_i hc
    cases h
    rw [ValueType.isScalar_iff] at hc
    exact .inl ⟨rfl, hc.imp Eq.symm fun h => h⟩
  · split at h
    · rename_i hc
      cases h
      exact .inr ⟨ValueType.isScalar_iff.1 hc, rfl⟩
    · simp at h

section

variable {x y : Expr}

theorem signsDiffer_typed (hx : HasType Γ x .i32) (hy : HasType Γ y .i32) :
    HasType Γ (signsDiffer x y) (.bool 1) := by
  have hneg {z : Expr} (hz : HasType Γ z .i32) :
      HasType Γ (.paren (.binary .lt z (.int 0))) (.bool 1) := .paren (hz.compare (.int 0) rfl)
  exact .binary (hneg hx) (hneg hy) rfl

/-- A floored quotient is an integer. -/
theorem floorDivExpr_typed (hx : HasType Γ x .i32) (hy : HasType Γ y .i32) :
    HasType Γ (floorDivExpr x y) .i32 := by
  have hq : HasType Γ (.binary .div x y) .i32 := hx.arith hy rfl
  have hr : HasType Γ (.binary .rem x y) .i32 := hx.arith hy rfl
  exact hq.call_three (hq.arith (.int 1) rfl) (.both (.paren (hr.compare (.int 0) rfl))
    (.paren (signsDiffer_typed hx hy))) rfl

theorem floorModExpr_typed (hx : HasType Γ x .i32) (hy : HasType Γ y .i32) :
    HasType Γ (floorModExpr x y) .i32 := by
  exact hx.call_three (hx.arith hy rfl) (.both (.paren (hx.compare (.int 0) rfl))
    (.paren (signsDiffer_typed hx hy))) rfl

end

theorem joinPrim_eq_i32 {p q : Prim} (h : joinPrim p q ≠ .f32) : joinPrim p q = .i32 :=
  (joinPrim_cases p q).resolve_right h

/-- **A binary operator returns what it says**, for every operator, kind of number and shape. -/
theorem binaryExpr_typed {op : BinaryOp} {n : Nat} {before : Code} (ha : a.Typed Γ) (hb : b.Typed Γ)
    (hn : joinComponents id op a.type b.type = .ok n)
    (hbits : op.isBitwise = true → a.type.prim = .i32 ∧ b.type.prim = .i32)
    (h : binaryExpr id op a b n = .ok (t, e, before)) :
    ∃ Δ, before.Typed Γ Δ ∧ HasType (Δ ++ Γ) e t.ty := by
  have hjoin := joinComponents_cases hn
  have hca (p : Prim) : HasType Γ (a.coerce p n) (.data ⟨p.toScalar, n⟩) := ha.coerce p (by tauto)
  have hcb (p : Prim) : HasType Γ (b.coerce p n) (.data ⟨p.toScalar, n⟩) := hb.coerce p (by tauto)
  have hpa := hca (joinPrim a.type.prim b.type.prim)
  have hpb := hcb (joinPrim a.type.prim b.type.prim)
  have hscalars (h : (do
      requireScalar id op.name a
      requireScalar id op.name b : Except Halt Unit) = .ok ()) :
      a.type.components = 1 ∧ b.type.components = 1 ∧ n = 1 := by
    obtain ⟨⟨⟩, hsa, hsb⟩ := bind_eq_ok.1 h
    rw [requireScalar_eq_ok] at hsa hsb
    omega
  have hsigned : Scalar.i32 ≠ .f32 := by decide
  have hunsigned : Scalar.u32 ≠ .f32 := by decide
  have hints (h : a.type.prim = .i32 ∧ b.type.prim = .i32) :
      joinPrim a.type.prim b.type.prim = .i32 := by
    rw [h.1, h.2]
    rfl
  -- All operators but the floored remainder are one expression.
  have hpure {e : Expr} {t : ValueType} (he : HasType Γ e t.ty) :
      ∃ Δ, Code.done.Typed Γ Δ ∧ HasType (Δ ++ Γ) e t.ty := ⟨[], .done, he⟩
  cases op with
  | mul | add | sub | div =>
    cases h
    exact hpure (hpa.arith hpb (by simp [Operator.onData]))
  | trueDiv =>
    cases h
    exact hpure ((hca .f32).arith (hcb .f32) (by simp [Operator.onData]))
  | floorDiv =>
    unfold binaryExpr at h
    dsimp only at h
    split at h
    · rename_i hfloat
      cases h
      rw [hfloat] at hpa hpb ⊢
      exact hpure (HasType.call_one (hpa.arith hpb (by simp [Operator.onData])) rfl)
    · rename_i hint
      obtain ⟨⟨⟩, hs, h⟩ := bind_eq_ok.1 h
      cases h
      obtain ⟨-, -, rfl⟩ := hscalars hs
      rw [joinPrim_eq_i32 hint] at hpa hpb ⊢
      exact hpure (floorDivExpr_typed hpa hpb)
  | mod =>
    unfold binaryExpr at h
    dsimp only at h
    split at h
    · rename_i hfloat
      cases h
      rw [hfloat] at hpa hpb ⊢
      have hfloor : HasType Γ (.func .floor [.binary .div (a.coerce .f32 n) (b.coerce .f32 n)])
          (.data ⟨.f32, n⟩) := HasType.call_one (hpa.arith hpb (by simp [Operator.onData])) rfl
      exact hpure (hpa.arith (hpb.arith hfloor (by simp [Operator.onData, Prim.toScalar]))
        (by simp [Operator.onData]))
    · rename_i hint
      obtain ⟨⟨⟩, hs, h⟩ := bind_eq_ok.1 h
      cases h
      obtain ⟨-, -, rfl⟩ := hscalars hs
      rw [joinPrim_eq_i32 hint] at hpa hpb ⊢
      -- The truncated remainder has a line of its own.
      refine ⟨_, .line (.letBind (hpa.arith hpb rfl)) .done, ?_⟩
      refine floorModExpr_typed (.ident List.mem_cons_self) (hpb.mono ?_)
      exact List.subset_append_right _ _
  | max | min =>
    cases h
    exact hpure (hpa.call_two hpb (if_pos rfl))
  | bitAnd | bitOr | bitXor =>
    cases h
    rw [hints (hbits rfl)] at hpa hpb ⊢
    exact hpure (hpa.arith hpb (if_pos ⟨rfl, hsigned⟩))
  | bitShl | bitSar =>
    cases h
    rw [hints (hbits rfl)] at hpa hpb ⊢
    exact hpure (.binary hpa (hpb.convert (t := ⟨.u32, n⟩) (.inl rfl)) (if_pos ⟨hsigned, rfl⟩))
  | bitShr =>
    cases h
    rw [hints (hbits rfl)] at hpa hpb ⊢
    have hwa := hpa.convert (t := ⟨.u32, n⟩) (.inl rfl)
    have hwb := hpb.convert (t := ⟨.u32, n⟩) (.inl rfl)
    exact hpure (HasType.convert (.binary hwa hwb (if_pos ⟨hunsigned, rfl⟩)) (.inl rfl))
  | atan2 =>
    cases h
    exact hpure ((hca .f32).call_two (hcb .f32) (if_pos ⟨rfl, rfl⟩))
  | pow =>
    unfold binaryExpr at h
    dsimp only at h
    split at h
    · rename_i hfloat
      cases h
      rw [hfloat] at hpa hpb ⊢
      exact hpure (hpa.call_two hpb (if_pos ⟨rfl, rfl⟩))
    · rename_i hint
      cases h
      rw [joinPrim_eq_i32 hint]
      have hpower : HasType Γ (.func .pow [a.coerce .f32 n, b.coerce .f32 n]) (.data ⟨.f32, n⟩) :=
        (hca .f32).call_two (hcb .f32) (if_pos ⟨rfl, rfl⟩)
      have hround : HasType Γ (.func .round [.func .pow [a.coerce .f32 n, b.coerce .f32 n]])
          (.data ⟨.f32, n⟩) := hpower.call_one rfl
      exact hpure (hround.convert (.inl rfl))
  | logicalOr | logicalAnd =>
    obtain ⟨⟨⟩, hs, h⟩ := bind_eq_ok.1 h
    cases h
    obtain ⟨ha1, hb1, rfl⟩ := hscalars hs
    have hla := HasType.paren (ha.compareZero ha1 (.inr rfl))
    have hlb := HasType.paren (hb.compareZero hb1 (.inr rfl))
    refine hpure (HasType.convertBool (.binary hla hlb ?_))
    rfl
  | cmpLt | cmpLe | cmpGt | cmpGe | cmpEq | cmpNe =>
    cases h
    refine hpure (HasType.convertBool (hpa.compare hpb ?_))
    exact if_pos rfl

end Codegen

end WgslKernel
