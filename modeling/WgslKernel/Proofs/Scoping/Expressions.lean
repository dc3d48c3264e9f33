import WgslKernel.Proofs.Codegen.Table
import WgslKernel.Proofs.Scoping.Scope

/-!
# Names in generated expressions

An expression that lowering puts together names nothing but what its parts name, the resources it
works on, and the remainder that floored division declares first.
-/

namespace WgslKernel

open List

/-! ## Names in expressions -/

namespace Expr

attribute [simp] names

@[simp] theorem names_callee (t : ShaderType) : (Callee.construct t).names = [] := rfl

theorem namesOf_subset {es : List Expr} {scope : List Name} :
    namesOf es ⊆ scope ↔ ∀ e ∈ es, e.names ⊆ scope := by
  induction es with
  | nil => simp [namesOf]
  | cons e es ih => simp [namesOf, ih]

@[simp] theorem names_int (v : Int) : (int v).names = [] := rfl

theorem names_construct (t : ShaderType) (es : List Expr) :
    (call (.construct t) es).names = namesOf es := rfl

@[simp] theorem names_convert (t : ShaderType) (e : Expr) : (convert t e).names = e.names := by
  simp [convert, namesOf]

@[simp] theorem names_bitcast (t : ShaderType) (e : Expr) : (bitcast t e).names = e.names := by
  simp [bitcast, names, Callee.names, namesOf]

@[simp] theorem names_word (r : Resource) (i : Expr) :
    (word r i).names = .ident (.resource r) :: i.names := rfl

@[simp] theorem names_input (m : MemberName) : (input m).names = [.ident .stageInput] := rfl

@[simp] theorem names_output (m : MemberName) : (output m).names = [.ident .stageOutput] := rfl

@[simp] theorem names_zero (p : Prim) : (zero p).names = [] := by cases p <;> rfl

theorem names_func (f : Func) (es : List Expr) :
    (func f es).names = (if f.isHelper then [.helper f] else []) ++ namesOf es := rfl

end Expr

namespace Codegen

open WgslKernel.Expr (namesOf names_func namesOf_subset)

variable {ctx : Context} {values : Values} {scope : List Name}

@[simp] theorem names_coerce (v : Value) (p : Prim) (n : Nat) :
    (v.coerce p n).names = v.expr.names := by
  unfold Value.coerce
  dsimp only
  split <;> split <;> simp

@[simp] theorem names_toWord (e : Expr) (p : Prim) : (toWord e p).names = e.names := by
  cases p <;> simp [toWord]

@[simp] theorem names_fromWord (e : Expr) (p : Prim) : (fromWord e p).names = e.names := by
  cases p <;> simp [fromWord]

@[simp] theorem names_ofConst (c : Const) : (Value.ofConst c).expr.names = [] := by
  cases c with
  | i32 w =>
    simp only [Value.ofConst, Expr.ofInt32]
    split <;> simp
  | f32 bits =>
    simp only [Value.ofConst, Expr.ofFloat]
    split <;> simp

/-! ## Operators -/

theorem unaryExpr_names {id : StmtId} {op : UnaryOp} {x : Value} {t : ValueType} {e : Expr}
    (h : unaryExpr id op x = .ok (t, e)) (hx : x.expr.names ⊆ scope) : e.names ⊆ scope := by
  cases op with
  | round | floor | ceil =>
    simp only [unaryExpr] at h
    split at h <;> cases h <;> simp [names_func, Func.isHelper, namesOf, hx]
  | bitNot | logicNot =>
    obtain ⟨⟨⟩, -, h⟩ := bind_eq_ok.1 h
    cases h
    simp [hx]
  | _ =>
    cases h
    simp [names_func, Func.isHelper, namesOf, hx]

theorem signsDiffer_names {a b : Expr} (ha : a.names ⊆ scope) (hb : b.names ⊆ scope) :
    (signsDiffer a b).names ⊆ scope := by
  simp [signsDiffer, ha, hb]

theorem floorDivExpr_names {a b : Expr} (ha : a.names ⊆ scope) (hb : b.names ⊆ scope) :
    (floorDivExpr a b).names ⊆ scope := by
  simp [floorDivExpr, names_func, Func.isHelper, namesOf, signsDiffer_names, ha, hb]

theorem floorModExpr_names {r b : Expr} (hr : r.names ⊆ scope) (hb : b.names ⊆ scope) :
    (floorModExpr r b).names ⊆ scope := by
  simp [floorModExpr, names_func, Func.isHelper, namesOf, signsDiffer_names, hr, hb]

/-- A binary operator and the lines ahead of it, which declare a remainder at most. -/
theorem binaryExpr_scoped {id : StmtId} {op : BinaryOp} {a b : Value} {n : Nat} {t : ValueType}
    {e : Expr} {before : Code} (h : binaryExpr id op a b n = .ok (t, e, before))
    (ha : a.expr.names ⊆ scope) (hb : b.expr.names ⊆ scope) :
    before.Scoped scope ∧ e.names ⊆ before.binds ++ scope ∧ before.headers = [] ∧
      (before.declared = [] ∨ before.declared = [.ident (.remainder id)]) := by
  have hdone {e : Expr} (he : e.names ⊆ scope) :
      Code.done.Scoped scope ∧ e.names ⊆ Code.done.binds ++ scope ∧ Code.done.headers = [] ∧
        (Code.done.declared = [] ∨ Code.done.declared = [.ident (.remainder id)]) :=
    ⟨trivial, he, rfl, .inl rfl⟩
  cases op with
  | floorDiv =>
    simp only [binaryExpr] at h
    split at h
    · cases h
      exact hdone (by simp [names_func, Func.isHelper, namesOf, ha, hb])
    · obtain ⟨⟨⟩, -, h⟩ := bind_eq_ok.1 h
      cases h
      exact hdone (floorDivExpr_names (by simpa using ha) (by simpa using hb))
  | mod =>
    simp only [binaryExpr] at h
    split at h
    · cases h
      exact hdone (by simp [names_func, Func.isHelper, namesOf, ha, hb])
    · obtain ⟨⟨⟩, -, h⟩ := bind_eq_ok.1 h
      cases h
      refine ⟨by simp [Code.Scoped, Line.names, ha, hb], floorModExpr_names ?_ ?_, rfl, .inr rfl⟩
      · simp [Code.binds, Line.binds]
      · rw [names_coerce]
        exact List.Subset.trans hb (subset_append_right _ _)
  | pow =>
    simp only [binaryExpr] at h
    split at h <;> cases h <;> exact hdone (by simp [names_func, Func.isHelper, namesOf, ha, hb])
  | logicalOr | logicalAnd =>
    obtain ⟨⟨⟩, -, h⟩ := bind_eq_ok.1 h
    cases h
    exact hdone (by simp [Value.isNonzero, ha, hb])
  | _ =>
    cases h
    exact hdone (by simp [names_func, Func.isHelper, namesOf, ha, hb])

/-! ## Places and operands -/

section Operands

variable {id : StmtId} {xs : List StmtId}

theorem scalars_names {cs : List Value}
    (hvalues : ∀ x ∈ xs, ∀ v, ctx.value values id x = .ok v → v.expr.names ⊆ scope)
    (h : xs.mapM (ctx.scalar values id) = .ok cs) : ∀ v ∈ cs, v.expr.names ⊆ scope := by
  intro v hv
  obtain ⟨x, hx, hxv⟩ := exists_of_mem_mapM h hv
  exact hvalues x hx v (scalar_eq_ok.1 hxv).1

theorem floatOperand_names {x : StmtId} {e : Expr}
    (hvalues : ∀ v, ctx.value values id x = .ok v → v.expr.names ⊆ scope)
    (h : floatOperand ctx values id x = .ok e) : e.names ⊆ scope := by
  obtain ⟨v, hv, h⟩ := bind_eq_ok.1 h
  obtain ⟨⟨⟩, -, h⟩ := bind_eq_ok.1 h
  cases h
  rw [names_coerce]
  exact hvalues v (scalar_eq_ok.1 hv).1

theorem floatVector_names {q : Quad} {e : Expr}
    (hvalues : ∀ x ∈ q.toList, ∀ v, ctx.value values id x = .ok v → v.expr.names ⊆ scope)
    (h : floatVector ctx values id q = .ok e) : e.names ⊆ scope := by
  obtain ⟨es, hes, h⟩ := bind_eq_ok.1 h
  cases h
  rw [Expr.names_construct, namesOf_subset]
  intro e he
  obtain ⟨x, hx, hxe⟩ := exists_of_mem_mapM hes he
  exact floatOperand_names (hvalues x hx) hxe

theorem vectorOf_names {cs : List Value} {p : Prim} (h : ∀ v ∈ cs, v.expr.names ⊆ scope) :
    (vectorOf cs p).names ⊆ scope := by
  have hparts : ∀ e ∈ cs.map fun v => v.coerce p 1, e.names ⊆ scope := by
    simpa using h
  unfold vectorOf
  split
  · rename_i e he
    exact hparts e (he ▸ mem_cons_self)
  · rw [Expr.names_construct, namesOf_subset]
    exact hparts

theorem indexTerms_names {strides : List Nat} {terms : List Expr}
    (hvalues : ∀ x ∈ xs, ∀ v, ctx.value values id x = .ok v → v.expr.names ⊆ scope)
    (h : indexTerms ctx values id xs strides = .ok terms) : ∀ e ∈ terms, e.names ⊆ scope := by
  induction xs generalizing strides terms with
  | nil =>
    cases h
    simp
  | cons x xs ih =>
    cases strides with
    | nil =>
      cases h
      simp
    | cons stride strides =>
      obtain ⟨v, hv, h⟩ := bind_eq_ok.1 h
      split at h
      · obtain ⟨tail, htail, h⟩ := bind_eq_ok.1 h
        cases h
        rw [forall_mem_cons]
        refine ⟨?_, ih (fun y hy => hvalues y (mem_cons_of_mem _ hy)) htail⟩
        have hx := hvalues x mem_cons_self v hv
        unfold strideTerm
        split <;> simp [hx]
      · simp at h

theorem sumTerms_names {terms : List Expr} {base : Nat} (h : ∀ e ∈ terms, e.names ⊆ scope) :
    (sumTerms terms base).names ⊆ scope := by
  have hsum {ts : List Expr} {t : Expr} (ht : t.names ⊆ scope) (hts : ∀ e ∈ ts, e.names ⊆ scope) :
      (ts.foldl (.binary .add) t).names ⊆ scope := by
    induction ts generalizing t with
    | nil => exact ht
    | cons e es ih =>
      rw [forall_mem_cons] at hts
      exact ih (by simp [ht, hts.1]) hts.2
  cases terms with
  | nil => simp [sumTerms]
  | cons t ts =>
    rw [forall_mem_cons] at h
    unfold sumTerms
    dsimp only
    split
    · exact hsum h.1 h.2
    · simp [hsum h.1 h.2]

theorem operandWords_names {words : List Expr}
    (hvalues : ∀ x ∈ xs, ∀ v, ctx.value values id x = .ok v → v.expr.names ⊆ scope)
    (h : operandWords ctx values id xs = .ok words) : ∀ e ∈ words, e.names ⊆ scope := by
  induction xs generalizing words with
  | nil =>
    cases h
    simp
  | cons x xs ih =>
    obtain ⟨v, hv, h⟩ := bind_eq_ok.1 h
    obtain ⟨⟨⟩, -, h⟩ := bind_eq_ok.1 h
    obtain ⟨tail, htail, h⟩ := bind_eq_ok.1 h
    cases h
    rw [forall_mem_cons, names_toWord]
    exact ⟨hvalues x mem_cons_self v (scalar_eq_ok.1 hv).1,
      ih (fun y hy => hvalues y (mem_cons_of_mem _ hy)) htail⟩

/-- An atomic statement works on a word of the buffer it uses. -/
theorem atomicTarget_eq_ok {ptr : StmtId} {write : Bool} {target : AtomicTarget}
    (h : atomicTarget ctx values id ptr write = .ok target) : ∃ v,
      ctx.value values id ptr = .ok v ∧ target.word = .word target.use.resource v.expr ∧
      target.use.resource.IsNumbered := by
  obtain ⟨-, v, hv, ⟨f, indices, offset, -, -, rfl⟩ | ⟨ty, offset, -, rfl⟩⟩ := atomicTarget_cases h
  · exact ⟨v, hv, rfl, rfl⟩
  · exact ⟨v, hv, rfl, rfl⟩

theorem useTexture_resource {t : Texture} {use : Use} (h : useTexture id t = .ok use) :
    use.resource = .texture t.id := by
  unfold useTexture at h
  split at h
  · simp at h
  all_goals
    cases h
    rfl

theorem useStorageTexture_resource {t : Texture} {use : Use}
    (h : useStorageTexture id t = .ok use) : use.resource = .storageTexture t.id := by
  unfold useStorageTexture at h
  split at h
  · simp at h
  · split at h
    · simp at h
    · cases h
      rfl

end Operands

end Codegen

end WgslKernel
