import WgslKernel.Proofs.Codegen.Program

/-!
# The shapes that values have

A value of the generator is a word or a float, and there is one of them or there are four: nothing
makes vectors but the position of a fragment and the texels of textures.
-/

namespace WgslKernel

/-! ## Plain types -/

namespace ValueType

/-- A word or a float, one or four of them. -/
def IsPlain (t : ValueType) : Prop :=
  (t.prim = .i32 ∨ t.prim = .f32) ∧ (t.components = 1 ∨ t.components = 4)

/-- Both numbers are compared. -/
instance (t : ValueType) : Decidable t.IsPlain := inferInstanceAs (Decidable (_ ∧ _))

theorem isPlain_ofPrim {p : Prim} : (ofPrim p).IsPlain ↔ p = .i32 ∨ p = .f32 := by
  simp [IsPlain, ofPrim]

/-- Components of a plain type are plain. -/
theorem IsPlain.scalar {t : ValueType} (h : t.IsPlain) : (ofPrim t.prim).IsPlain :=
  isPlain_ofPrim.2 h.1

theorem IsPlain.ints {t : ValueType} (h : t.IsPlain) : IsPlain ⟨.i32, t.components⟩ :=
  ⟨.inl rfl, h.2⟩

theorem IsPlain.floats {t : ValueType} (h : t.IsPlain) : IsPlain ⟨.f32, t.components⟩ :=
  ⟨.inr rfl, h.2⟩

theorem isScalar_iff {t : ValueType} : t.isScalar = true ↔ t.components = 1 := by
  simp [isScalar]

end ValueType

theorem Prim.scalar?_eq_ok {p : Prim} {s : Scalar} :
    p.scalar? = .ok s ↔ (p = .i32 ∨ p = .f32) ∧ s = p.toScalar := by
  cases p <;> simp [scalar?, toScalar, eq_comm]

/-- Which types a shader has. -/
theorem ValueType.shaderType_eq_ok {t : ValueType} {type : ShaderType} :
    t.shaderType = .ok type ↔ (t.prim = .i32 ∨ t.prim = .f32) ∧
      (1 ≤ t.components ∧ t.components ≤ 4) ∧ type = ⟨t.prim.toScalar, t.components⟩ := by
  rw [shaderType, bind_eq_ok]
  constructor
  · rintro ⟨scalar, hscalar, h⟩
    obtain ⟨hprim, rfl⟩ := Prim.scalar?_eq_ok.1 hscalar
    split at h
    · exact ⟨hprim, ‹_›, (Except.ok.inj h).symm⟩
    · cases h
  · rintro ⟨hprim, hcount, rfl⟩
    exact ⟨_, Prim.scalar?_eq_ok.2 ⟨hprim, rfl⟩, if_pos hcount⟩

namespace Codegen

variable {ctx : Context} {values : Values} {s : Stmt} {l : Lowering} {st st' : State}
  {id : StmtId} {t : ValueType} {v a b : Value}

theorem checkPrim_eq_ok {p : Prim} : checkPrim id p = .ok () ↔ p = .i32 ∨ p = .f32 := by
  unfold checkPrim
  cases p <;> simp [Prim.scalar?]

theorem shaderType_eq_ok {type : ShaderType} :
    shaderType id t = .ok type ↔ (t.prim = .i32 ∨ t.prim = .f32) ∧
      (1 ≤ t.components ∧ t.components ≤ 4) ∧ type = ⟨t.prim.toScalar, t.components⟩ := by
  rw [← ValueType.shaderType_eq_ok]
  unfold shaderType
  cases t.shaderType <;> simp

/-- A type with a name and a component count of one or four is plain. -/
theorem isPlain_of_shaderType {type : ShaderType} (h : shaderType id t = .ok type)
    (hc : t.components = 1 ∨ t.components = 4) : t.IsPlain := ⟨(shaderType_eq_ok.1 h).1, hc⟩

/-! ## Operators -/

theorem isPlain_ofConst (c : Const) : (Value.ofConst c).type.IsPlain := by
  cases c with
  | i32 => exact ValueType.isPlain_ofPrim.2 (.inl rfl)
  | f32 => exact ValueType.isPlain_ofPrim.2 (.inr rfl)

/-- The types a unary operator returns: that of its operand, floats or words. -/
theorem unaryExpr_type {op : UnaryOp} {e : Expr} (h : unaryExpr id op v = .ok (t, e)) :
    t = v.type ∨ t = ⟨.f32, v.type.components⟩ ∨ t = ⟨.i32, v.type.components⟩ := by
  cases op with
  | round | floor | ceil =>
    unfold unaryExpr at h
    dsimp only at h
    split at h <;> cases h <;> simp
  | bitNot | logicNot =>
    obtain ⟨⟨⟩, -, h⟩ := bind_eq_ok.1 h
    cases h
    simp
  | _ =>
    cases h
    simp

/-- Unary operators give plain values. -/
theorem unaryExpr_isPlain {op : UnaryOp} {e : Expr} (hv : v.type.IsPlain)
    (h : unaryExpr id op v = .ok (t, e)) : t.IsPlain := by
  rcases unaryExpr_type h with rfl | rfl | rfl
  · exact hv
  · exact hv.floats
  · exact hv.ints

/-- The component count that plain operands have in common. -/
theorem joinComponents_of_isPlain (id : StmtId) (op : BinaryOp) {a b : ValueType} (ha : a.IsPlain)
    (hb : b.IsPlain) : ∃ n, joinComponents id op a b = .ok n ∧ (n = 1 ∨ n = 4) := by
  unfold joinComponents
  split
  · exact ⟨_, rfl, ha.2⟩
  · rename_i h
    rw [ValueType.isScalar_iff, not_or] at h
    have hscalar : a.components = 1 := ha.2.resolve_right fun h4 =>
      h.1 (h4.trans (hb.2.resolve_left h.2).symm)
    rw [if_pos (ValueType.isScalar_iff.2 hscalar)]
    exact ⟨_, rfl, hb.2⟩

theorem joinPrim_cases (p q : Prim) : joinPrim p q = .i32 ∨ joinPrim p q = .f32 := by
  unfold joinPrim
  split <;> simp

/-- The types a binary operator returns: that of the promoted operands, floats or words. -/
theorem binaryExpr_type {op : BinaryOp} {n : Nat} {e : Expr} {before : Code}
    (h : binaryExpr id op a b n = .ok (t, e, before)) :
    t = ⟨joinPrim a.type.prim b.type.prim, n⟩ ∨ t = ⟨.f32, n⟩ ∨ t = ⟨.i32, n⟩ := by
  cases op with
  | floorDiv | mod =>
    unfold binaryExpr at h
    dsimp only at h
    split at h
    · cases h
      simp
    · obtain ⟨⟨⟩, -, h⟩ := bind_eq_ok.1 h
      cases h
      simp
  | pow =>
    unfold binaryExpr at h
    dsimp only at h
    split at h <;> cases h <;> simp
  | logicalOr | logicalAnd =>
    obtain ⟨⟨⟩, -, h⟩ := bind_eq_ok.1 h
    cases h
    simp
  | _ =>
    cases h
    simp

/-- Binary operators give plain values. -/
theorem binaryExpr_isPlain {op : BinaryOp} {n : Nat} {e : Expr} {before : Code}
    (hn : n = 1 ∨ n = 4) (h : binaryExpr id op a b n = .ok (t, e, before)) : t.IsPlain := by
  rcases binaryExpr_type h with rfl | rfl | rfl
  · exact ⟨joinPrim_cases _ _, hn⟩
  · exact ⟨.inr rfl, hn⟩
  · exact ⟨.inl rfl, hn⟩

theorem texelType_isPlain (texture : Texture) : (texelType texture).IsPlain := by
  unfold texelType
  split <;> decide

/-! ## Tables -/

/-- All entries of a table are plain. -/
def Values.IsPlain (values : Values) : Prop := ∀ p ∈ values, p.2.type.IsPlain

theorem Values.IsPlain.lookup (h : Values.IsPlain values) {x : StmtId}
    (hv : values.lookup x = some v) : v.type.IsPlain := by
  obtain ⟨before, after, rfl, -⟩ := List.lookup_eq_some_iff.1 hv
  exact h (x, v) (by simp)

/-- Operands are plain, whether they come from the table or are constants. -/
theorem Values.IsPlain.value (h : Values.IsPlain values) {user x : StmtId}
    (hv : ctx.value values user x = .ok v) : v.type.IsPlain := by
  rcases value_eq_ok.1 hv with hv | ⟨-, c, -, rfl⟩
  · exact h.lookup hv
  · exact isPlain_ofConst c

/-- **A statement has a plain value** if its operands have. -/
theorem Lowers.value_isPlain (h : Lowers ctx values s l) (hvalues : Values.IsPlain values)
    (hv : l.value = some v) : v.type.IsPlain := by
  cases h with
  | const =>
    cases hv
    exact isPlain_ofConst _
  | gridIndex | counter =>
    cases hv
    exact ValueType.isPlain_ofPrim.2 (.inl rfl)
  | temporary _ hprim =>
    cases hv
    exact ValueType.isPlain_ofPrim.2 (checkPrim_eq_ok.1 hprim)
  | unary _ hx _ he =>
    cases hv
    exact unaryExpr_isPlain (hvalues.value hx) he
  | binary _ ha hb _ hn he =>
    cases hv
    obtain ⟨n, hn', hcount⟩ := joinComponents_of_isPlain s.id _ (hvalues.value ha)
      (hvalues.value hb)
    cases hn.symm.trans hn'
    exact binaryExpr_isPlain hcount he
  | localLoad _ hvar =>
    cases hv
    have hplain := hvalues.value hvar
    exact hplain
  | temporaryLoad _ hslot =>
    cases hv
    have hplain := hvalues.value (temporarySlot_eq_ok hslot)
    exact hplain
  | fragCoord =>
    cases hv
    exact ⟨.inr rfl, .inr rfl⟩
  | derivative _ _ hx =>
    cases hv
    exact (hvalues.value hx).floats
  | extract _ hx =>
    cases hv
    exact (hvalues.value hx).scalar
  | sample _ _ hl | sampleLod _ _ _ hl =>
    obtain ⟨use, e, type, -, -, rfl⟩ := sampleTexture_eq_ok hl
    cases hv
    exact texelType_isPlain _
  | textureLoad =>
    cases hv
    exact texelType_isPlain _
  | argLoad _ _ htype | rand _ _ htype | alloca _ htype | globalPtr _ _ _ _ htype
  | globalLoad _ _ _ htype | atomicInt _ _ _ _ _ htype | atomicFloat _ _ _ _ _ htype
  | atomicLoad _ _ htype | vertexInput _ _ htype | fragmentInput _ _ htype
  | vertexIndex _ _ htype | instanceIndex _ _ htype =>
    cases hv
    exact isPlain_of_shaderType htype (.inl rfl)
  | exitLoop | nextIteration | localStore | globalStore | temporaryStore | atomicStore
  | vertexOutput | position | color | fragDepth | discard | textureStore | ret => cases hv

theorem Values.IsPlain.apply (h : Values.IsPlain st.values) (hl : Lowers ctx st.values s l)
    (happly : st.apply s.id l = .ok st') : Values.IsPlain st'.values := by
  rw [Values.IsPlain, (apply_values happly).1]
  cases hv : l.value with
  | none => exact h
  | some v => exact List.forall_mem_cons.2 ⟨hl.value_isPlain h hv, h⟩

/-- **A walk keeps its table plain.** -/
theorem Walks.isPlain {o : Outline} {code : Code} (h : Walks ctx st o st' code)
    (hst : Values.IsPlain st.values) : Values.IsPlain st'.values :=
  h.keeps (P := fun st => Values.IsPlain st.values)
    (fun _ hst hl happly => hst.apply hl happly) hst

end Codegen

end WgslKernel
