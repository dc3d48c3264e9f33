import WgslKernel.Proofs.Access.Uses
import WgslKernel.Proofs.Typing.Operators

/-!
# Types of lowered statements

The code of a statement is well typed if its operands are, and if what it asks for itself is
declared.  Textures are left out: there are no rules for them in `Func.result?`.
-/

namespace WgslKernel

open List

/-- Statements that stand for a place. -/
def Kind.isPlace : Kind → Bool
  | alloca _ | globalPtr .. | temporary .. => true
  | _ => false

/-- Statements that access a texture. -/
def Kind.isTexture : Kind → Bool
  | texture .. => true
  | _ => false

namespace Codegen

variable {ctx : Context} {values : Values} {s : Stmt} {l : Lowering} {m : Module} {Γ Γ' Δ : Env}
  {id x : StmtId} {v : Value} {t : ValueType} {type : ShaderType} {e : Expr}

attribute [local simp] Kind.operands

/-! ## Entries of the table -/

/-- What stands for a statement is of its type, and fit for what the statement is used as. -/
structure Entered (m : Module) (Γ : Env) (x : StmtId) (v : Value) : Prop where
  typed : v.Typed Γ
  place : m.Plays x .alloca → Assignable Γ v.expr v.type.ty
  index : ∀ {f : Field} {indices : List StmtId} {offset : Nat},
    m.kind? x = some (.globalPtr f indices offset) → HasType Γ v.expr .i32
  /-- The number of a temporary is written without a type of its own. -/
  slot : ∀ {ty : Prim} {offset : Nat}, m.kind? x = some (.temporary ty offset) →
    v.type = .ofPrim ty ∧ HasType Γ v.expr .i32

/-- What is entered stays entered. -/
theorem Entered.mono (h : Entered m Γ x v) (hsub : Γ ⊆ Γ') : Entered m Γ' x v where
  typed := h.typed.mono hsub
  place hx := (h.place hx).mono hsub
  index hx := (h.index hx).mono hsub
  slot hx := ⟨(h.slot hx).1, (h.slot hx).2.mono hsub⟩

/-- A statement that is no place has to be of its type only. -/
theorem Entered.of_typed {kind : Kind} (hkind : m.kind? x = some kind)
    (hplace : kind.isPlace = false) (h : v.Typed Γ) : Entered m Γ x v where
  typed := h
  place hx := by
    obtain ⟨ty, hx⟩ := hx.alloca
    cases hkind.symm.trans hx
    cases hplace
  index hx := by
    cases hkind.symm.trans hx
    cases hplace
  slot hx := by
    cases hkind.symm.trans hx
    cases hplace

theorem Entered.of_alloca {ty : Prim} (hkind : m.kind? x = some (.alloca ty))
    (h : Assignable Γ v.expr v.type.ty) : Entered m Γ x v where
  typed := h.1
  place _ := h
  index hx := by cases hkind.symm.trans hx
  slot hx := by cases hkind.symm.trans hx

theorem Entered.of_globalPtr {f : Field} {indices : List StmtId} {offset : Nat}
    (hkind : m.kind? x = some (.globalPtr f indices offset))
    (h : Value.Typed Γ ⟨e, .ofPrim .i32⟩) : Entered m Γ x ⟨e, .ofPrim .i32⟩ where
  typed := h
  place hx := by
    obtain ⟨ty, hx⟩ := hx.alloca
    cases hkind.symm.trans hx
  index _ := h
  slot hx := by cases hkind.symm.trans hx

theorem Entered.of_temporary {ty : Prim} {offset word : Nat}
    (hkind : m.kind? x = some (.temporary ty offset)) :
    Entered m Γ x ⟨.lit (.abstract word), .ofPrim ty⟩ where
  typed := .lit rfl
  place hx := by
    obtain ⟨ty, hx⟩ := hx.alloca
    cases hkind.symm.trans hx
  index hx := by cases hkind.symm.trans hx
  slot hx := by
    cases hkind.symm.trans hx
    exact ⟨rfl, .lit rfl⟩

/-! ## Forms of code -/

/-- The code of a statement is well typed, and its value is entered behind it. -/
def Lowering.Typed (m : Module) (Γ : Env) (id : StmtId) (l : Lowering) : Prop :=
  ∃ Δ, l.code.Typed Γ Δ ∧ ∀ v, l.value = some v → Entered m (Δ ++ Γ) id v

theorem typed_emit {line : Line} (h : line.Typed Γ []) : (Lowering.emit line).Typed m Γ id :=
  ⟨_, .line h .done, fun _ hv => by cases hv⟩

theorem typed_standIn (h : Entered m Γ id ⟨e, t⟩) : (Lowering.standIn e t).Typed m Γ id :=
  ⟨_, .done, fun _ hv => by cases hv; exact h⟩

/-- A value that is bound to a name of its own. -/
theorem typed_bind {before : Code} (htype : shaderType id t = .ok type)
    (hbefore : before.Typed Γ Δ) (he : HasType (Δ ++ Γ) e t.ty)
    (hentered : ∀ {Γ : Env}, Value.Typed Γ ⟨.ident (.temp id), t⟩ →
      Entered m Γ id ⟨.ident (.temp id), t⟩) :
    (Lowering.bound id t type e before).Typed m Γ id := by
  obtain ⟨-, -, rfl⟩ := shaderType_eq_ok.1 htype
  refine ⟨_, hbefore.append (.line (.letBind he) .done), fun v hv => ?_⟩
  cases hv
  exact hentered (.ident mem_cons_self)

/-- The value of a statement that is no place. -/
theorem typed_bound {kind : Kind} {before : Code} (hfound : m.kind? id = some kind)
    (hplace : kind.isPlace = false) (htype : shaderType id t = .ok type)
    (hbefore : before.Typed Γ Δ) (he : HasType (Δ ++ Γ) e t.ty) :
    (Lowering.bound id t type e before).Typed m Γ id :=
  typed_bind htype hbefore he fun h => .of_typed hfound hplace h

/-- A floating-point update in a loop leaves the word that it replaced. -/
theorem exchangeLoop_typed {op : AtomicOp} {target operand : Expr}
    (htarget : HasType Γ (.address target) .pointer) (hoperand : HasType Γ operand .f32) :
    (exchangeLoop id op target operand).Typed Γ [(.seen id, ⟨.i32, true⟩)] := by
  have hcombine {Γ : Env} {a b : Expr} (ha : HasType Γ a .f32) (hb : HasType Γ b .f32) :
      HasType Γ (combine op a b) .f32 := by
    cases op with
    | add | sub => exact ha.arith hb rfl
    | max | min => exact ha.call_two hb rfl
  let seen : Ident × Entry := (.seen id, ⟨.i32, true⟩)
  let wanted : Ident × Entry := (.wanted id, ⟨.i32, false⟩)
  let outcome : Ident × Entry := (.outcome id, ⟨.exchange, false⟩)
  have hseen {Γ : Env} (h : seen ∈ Γ) : HasType Γ (.ident (.seen id)) .i32 := .ident h
  have hoperand' : HasType (seen :: Γ) operand .f32 := hoperand.mono (subset_cons_self _ _)
  have hwanted : HasType (seen :: Γ) (.bitcast ⟨.i32, 1⟩
      (combine op (.bitcast ⟨.f32, 1⟩ (.ident (.seen id))) operand)) .i32 :=
    (hcombine ((hseen mem_cons_self).bitcast rfl) hoperand').bitcast rfl
  have houtcome : HasType (wanted :: seen :: Γ) (.func .atomicCompareExchangeWeak
      [.address target, .ident (.seen id), .ident (.wanted id)]) .exchange :=
    (htarget.mono (by simp)).call_three (hseen (by simp)) (.ident mem_cons_self) rfl
  have hmember {sel : Selector} {t : Ty} (ht : Ty.member? .exchange sel = some t) :
      HasType (outcome :: wanted :: seen :: Γ) (.select (.ident (.outcome id)) sel) t :=
    .select (.ident mem_cons_self) ht
  have hassign : Assignable (outcome :: wanted :: seen :: Γ) (.ident (.seen id)) .i32 :=
    ⟨hseen (by simp), _, _, rfl, show seen ∈ outcome :: wanted :: seen :: Γ by simp⟩
  exact .line (.declareAs (htarget.call_one rfl)) (.loop (.line (.letBind hwanted)
    (.line (.letInferred houtcome) (.branch (hmember rfl) (.line .exitLoop .done)
      (.line (.assign hassign (hmember rfl)) .done)))) .done)

theorem returnLines_typed {words : List Expr} (hrets : (.resource .rets, ⟨.buffer false, true⟩) ∈ Γ)
    (h : ∀ e ∈ words, HasType Γ e .i32) (k : Nat) :
    (Code.ofLines (returnLines k words)).Typed Γ [] := by
  induction words generalizing k with
  | nil => exact .done
  | cons e es ih =>
    rw [forall_mem_cons] at h
    exact .line (.assign (.word hrets (.lit rfl)) h.1) (ih h.2 (k + 1))

/-! ## What a statement asks for -/

/-- The operands of a statement are entered, and what it asks for is declared. -/
structure Furnished (ctx : Context) (values : Values) (s : Stmt) (l : Lowering) (Γ : Env) :
    Prop where
  operands : ∀ x ∈ s.kind.operands, ∀ v, ctx.value values s.id x = .ok v → Entered ctx.module Γ x v
  buffer : ∀ u ∈ l.uses, ∀ {atomic writable : Bool} {length : Option Nat},
    u.declaration = .buffer atomic length writable →
      (.resource u.resource, ⟨.buffer atomic, writable⟩) ∈ Γ
  input : ∀ member ∈ l.inputs, HasType Γ (.input member.name) (.data member.type)
  output : ∀ member ∈ l.outputs, Assignable Γ (.output member.name) (.data member.type)
  position : ctx.stage = .vertex → Assignable Γ (.output .position) (.data ⟨.f32, 4⟩)
  counter : ∀ loop, s.kind = .loopIndex loop → ctx.gridLoop ≠ some loop →
    (.counter loop, ⟨.i32, true⟩) ∈ Γ
  grid : ∀ loop, ctx.gridLoop = some loop → (.gridIndex, ⟨.i32, true⟩) ∈ Γ

theorem temporarySlot_kind {user ptr : StmtId} (h : temporarySlot ctx values user ptr = .ok v) :
    ∃ ty offset, ctx.module.kind? ptr = some (.temporary ty offset) := by
  obtain ⟨kind, hkind, h⟩ := bind_eq_ok.1 h
  rw [kindOf_eq_ok] at hkind
  split at h
  · exact ⟨_, _, hkind⟩
  · simp at h

namespace Furnished

variable (hs : Furnished ctx values s l Γ)

include hs

theorem value (hx : x ∈ s.kind.operands) (hv : ctx.value values s.id x = .ok v) : v.Typed Γ :=
  (hs.operands x hx v hv).typed

theorem scalar (hx : x ∈ s.kind.operands) (hv : ctx.scalar values s.id x = .ok v) :
    v.type.components = 1 ∧ HasType Γ v.expr (.data ⟨v.type.prim.toScalar, 1⟩) := by
  obtain ⟨hv, hscalar⟩ := scalar_eq_ok.1 hv
  have hone := ValueType.isScalar_iff.1 hscalar
  have htyped := hs.value hx hv
  rw [Value.Typed, ValueType.ty, hone] at htyped
  exact ⟨hone, htyped⟩

/-- The word of a field behind a pointer. -/
theorem fieldIndex {f : Field} {ptr : StmtId} (hptr : ptr ∈ s.kind.operands)
    (hfield : fieldOf ctx s.id ptr = .ok f) (hv : ctx.value values s.id ptr = .ok v) :
    HasType Γ v.expr .i32 := by
  obtain ⟨indices, offset, hkind⟩ := fieldOf_eq_ok hfield
  exact (hs.operands ptr hptr v hv).index hkind

/-- The word of a global temporary. -/
theorem temporarySlot {ptr : StmtId} (hptr : ptr ∈ s.kind.operands)
    (hslot : temporarySlot ctx values s.id ptr = .ok v) :
    v.type.components = 1 ∧ HasType Γ v.expr .i32 := by
  obtain ⟨ty, offset, hkind⟩ := temporarySlot_kind hslot
  obtain ⟨htype, hexpr⟩ := (hs.operands ptr hptr v (temporarySlot_eq_ok hslot)).slot hkind
  exact ⟨by rw [htype]; rfl, hexpr⟩

/-- The word that an atomic statement works on. -/
theorem atomicTarget {ptr : StmtId} {write : Bool} {target : AtomicTarget}
    (hptr : ptr ∈ s.kind.operands)
    (htarget : atomicTarget ctx values s.id ptr write = .ok target) (huse : target.use ∈ l.uses) :
    HasType Γ (.address target.word) .pointer := by
  obtain ⟨-, v, hv, ⟨f, indices, offset, hkind, -, rfl⟩ | ⟨ty, offset, hkind, rfl⟩⟩ :=
    atomicTarget_cases htarget
  · exact .wordAddress (hs.buffer _ huse rfl) ((hs.operands ptr hptr v hv).index hkind)
  · exact .wordAddress (hs.buffer _ huse rfl) ((hs.operands ptr hptr v hv).slot hkind).2

theorem indexTerms {indices : List StmtId} {strides : List Nat} {terms : List Expr}
    (hindices : ∀ x ∈ indices, x ∈ s.kind.operands)
    (h : indexTerms ctx values s.id indices strides = .ok terms) :
    ∀ e ∈ terms, HasType Γ e .i32 := by
  induction indices generalizing strides terms with
  | nil =>
    cases h
    simp
  | cons x xs ih =>
    cases strides with
    | nil =>
      cases h
      simp
    | cons k ks =>
      obtain ⟨hx, hxs⟩ := forall_mem_cons.1 hindices
      obtain ⟨v, hv, h⟩ := bind_eq_ok.1 h
      split at h
      · rename_i hint
        obtain ⟨rest, hrest, h⟩ := bind_eq_ok.1 h
        cases h
        have hindex : HasType Γ v.expr .i32 := by
          have htyped := hs.value hx hv
          rwa [Value.Typed, hint] at htyped
        refine forall_mem_cons.2 ⟨?_, ih hxs hrest⟩
        unfold strideTerm
        split
        · exact hindex
        · exact hindex.arith (.int _) rfl
      · simp at h

theorem floatOperand (hx : x ∈ s.kind.operands) (h : floatOperand ctx values s.id x = .ok e) :
    HasType Γ e .f32 := by
  obtain ⟨v, hv, h⟩ := bind_eq_ok.1 h
  obtain ⟨⟨⟩, -, h⟩ := bind_eq_ok.1 h
  cases h
  obtain ⟨hv, hscalar⟩ := scalar_eq_ok.1 hv
  exact (hs.value hx hv).coerce .f32 (.inl (ValueType.isScalar_iff.1 hscalar))

theorem floatVector {q : Quad} (hq : ∀ x ∈ q.toList, x ∈ s.kind.operands)
    (h : floatVector ctx values s.id q = .ok e) : HasType Γ e (.data ⟨.f32, 4⟩) := by
  obtain ⟨floats, hfloats, h⟩ := bind_eq_ok.1 h
  cases h
  have hlength : floats.length = 4 := (mapM_eq_ok.1 hfloats).length_eq.symm
  refine @HasType.call Γ _ floats (List.replicate 4 .f32) _ (by simp [hlength]) (fun p hp => ?_) rfl
  obtain ⟨hexpr, htype⟩ := of_mem_zip hp
  obtain ⟨x, hx, hfloat⟩ := exists_of_mem_mapM hfloats hexpr
  rw [eq_of_mem_replicate htype]
  exact hs.floatOperand (hq x hx) hfloat

theorem operandWords {operands : List StmtId} {words : List Expr}
    (hoperands : ∀ x ∈ operands, x ∈ s.kind.operands)
    (h : operandWords ctx values s.id operands = .ok words) : ∀ e ∈ words, HasType Γ e .i32 := by
  induction operands generalizing words with
  | nil =>
    cases h
    simp
  | cons x xs ih =>
    obtain ⟨hx, hxs⟩ := forall_mem_cons.1 hoperands
    obtain ⟨v, hv, h⟩ := bind_eq_ok.1 h
    obtain ⟨⟨⟩, -, h⟩ := bind_eq_ok.1 h
    obtain ⟨rest, hrest, h⟩ := bind_eq_ok.1 h
    cases h
    exact forall_mem_cons.2 ⟨hasType_toWord (hs.scalar hx hv).2, ih hxs hrest⟩

end Furnished

/-- An index is an integer. -/
theorem sumTerms_typed {terms : List Expr} (h : ∀ e ∈ terms, HasType Γ e .i32) (base : Nat) :
    HasType Γ (sumTerms terms base) .i32 := by
  have hsum {sum : Expr} {es : List Expr} (hsum : HasType Γ sum .i32)
      (hes : ∀ e ∈ es, HasType Γ e .i32) : HasType Γ (es.foldl (.binary .add) sum) .i32 := by
    induction es generalizing sum with
    | nil => exact hsum
    | cons e es ih =>
      obtain ⟨he, hes⟩ := forall_mem_cons.1 hes
      exact ih (hsum.arith he rfl) hes
  cases terms with
  | nil => exact .int _
  | cons e es =>
    obtain ⟨he, hes⟩ := forall_mem_cons.1 h
    unfold sumTerms
    dsimp only
    split
    · exact hsum he hes
    · exact (hsum he hes).arith (.int _) rfl

/-! ## Statements -/

theorem buffersWritable_of_compute (h : ctx.stage = .compute) : ctx.buffersWritable = true := by
  simp [Context.buffersWritable, h]

/-- A component of a vector is one of its numbers. -/
theorem member?_component {index : Nat} {selector : Selector}
    (hin : ¬ (t.components ≤ index ∨ t.isScalar = true))
    (h : Selector.component? index = some selector) :
    t.ty.member? selector = some (ValueType.ofPrim t.prim).ty := by
  rw [not_or, ValueType.isScalar_iff, Nat.not_le] at hin
  have hany : (List.range t.components).any
      (fun k => Selector.component? k = some selector) = true := by
    rw [any_eq_true]
    exact ⟨index, mem_range.2 hin.1, by simp [h]⟩
  have hmember : (Ty.data ⟨t.prim.toScalar, t.components⟩).member? selector =
      if t.components ≠ 1 ∧ (List.range t.components).any
        (fun k => Selector.component? k = some selector) then
          some (.data ⟨t.prim.toScalar, 1⟩) else none := by
    cases selector <;> rfl
  rw [ValueType.ty, hmember, if_pos ⟨hin.2, hany⟩]
  rfl

/-- Operands of bitwise operators are integers. -/
theorem integers_of_lower {op : BinaryOp} {x y : StmtId} {a b : Value}
    (hkind : s.kind = .binary op x y) (h : lower ctx values s = .ok l)
    (ha : ctx.value values s.id x = .ok a) (hb : ctx.value values s.id y = .ok b)
    (hop : op.isBitwise = true) : a.type.prim = .i32 ∧ b.type.prim = .i32 := by
  have hbinary : lowerBinary ctx values s.id op x y = .ok l := by
    rw [← h, lower, hkind]
  obtain ⟨a', ha', h⟩ := bind_eq_ok.1 hbinary
  obtain ⟨b', hb', h⟩ := bind_eq_ok.1 h
  cases ha.symm.trans ha'
  cases hb.symm.trans hb'
  obtain ⟨⟨⟩, -, h⟩ := bind_eq_ok.1 h
  obtain ⟨⟨⟩, -, h⟩ := bind_eq_ok.1 h
  obtain ⟨n, -, h⟩ := bind_eq_ok.1 h
  rw [if_pos hop] at h
  obtain ⟨⟨⟩, hia, h⟩ := bind_eq_ok.1 h
  obtain ⟨⟨⟩, hib, -⟩ := bind_eq_ok.1 h
  exact ⟨requireInteger_eq_ok.1 hia, requireInteger_eq_ok.1 hib⟩

/-- A random number is drawn by the function for its kind. -/
theorem rand_typed {ty : Prim} (hkind : s.kind = .rand ty)
    (hfound : ctx.module.kind? s.id = some s.kind) (h : lower ctx values s = .ok l) :
    l.Typed ctx.module Γ s.id := by
  have hrand : lowerRand ctx s.id ty = .ok l := by
    rw [← h, lower, hkind]
  obtain ⟨⟨⟩, -, h⟩ := bind_eq_ok.1 hrand
  obtain ⟨l', hl', h⟩ := bind_eq_ok.1 h
  cases h
  obtain ⟨type, htype, rfl⟩ := define_eq_ok.1 hl'
  refine typed_bound hfound (by rw [hkind]; rfl) htype .done ?_
  have hword : HasType Γ (.func .randU32 []) .u32 := .call_nil rfl
  cases ty with
  | f32 => exact HasType.call_nil rfl
  | _ => exact hword.convert (.inl rfl)

/-- **The code of a statement is well typed** if its operands are and its uses are declared. -/
theorem Lowers.typed (h : Lowers ctx values s l) (hlower : lower ctx values s = .ok l)
    (hfound : ctx.module.kind? s.id = some s.kind) (hadmits : ctx.module.Admits s.block s.kind)
    (htexture : s.kind.isTexture = false) (hs : Furnished ctx values s l Γ) :
    l.Typed ctx.module Γ s.id := by
  cases h with
  | const hkind =>
    exact ⟨[], .done, fun v hv => by
      cases hv
      exact .of_typed hfound (by rw [hkind]; rfl) (Value.typed_ofConst _)⟩
  | gridIndex hkind hgrid =>
    exact typed_standIn (.of_typed hfound (by rw [hkind]; rfl) (.ident (hs.grid _ hgrid)))
  | counter hkind hgrid =>
    exact typed_standIn (.of_typed hfound (by rw [hkind]; rfl) (.ident (hs.counter _ hkind hgrid)))
  | argLoad hkind _ htype =>
    refine typed_bound hfound (by rw [hkind]; rfl) htype .done (hasType_fromWord ?_)
    exact .word (hs.buffer _ mem_cons_self rfl) (.lit rfl) rfl
  | rand hkind => exact rand_typed hkind hfound hlower
  | unary hkind hv _ he htype =>
    refine typed_bound hfound (by rw [hkind]; rfl) htype .done ?_
    exact unaryExpr_typed (hs.value (by simp [hkind]) hv) he
  | binary hkind ha hb _ hn he htype =>
    obtain ⟨Δ, hbefore, he⟩ := binaryExpr_typed (hs.value (by simp [hkind]) ha)
      (hs.value (by simp [hkind]) hb) hn (integers_of_lower hkind hlower ha hb) he
    exact typed_bound hfound (by rw [hkind]; rfl) htype hbefore he
  | exitLoop => exact typed_emit .exitLoop
  | nextIteration => exact typed_emit .nextIteration
  | discard => exact typed_emit .discard
  | alloca hkind htype =>
    obtain ⟨-, -, rfl⟩ := shaderType_eq_ok.1 htype
    refine ⟨_, .line .declare .done, fun v hv => ?_⟩
    cases hv
    rw [hkind] at hfound
    exact .of_alloca hfound ⟨.ident mem_cons_self, _, _, rfl, mem_cons_self⟩
  | localLoad hkind hvar htype =>
    refine typed_bound hfound (by rw [hkind]; rfl) htype .done ?_
    exact hs.value (by simp [hkind]) hvar
  | @localStore ptr x var v hkind hvar hv heq =>
    rw [hkind] at hadmits
    have hplace := (hs.operands ptr (by simp [hkind]) var hvar).place hadmits
    have hassigned := hs.value (by simp [hkind]) hv
    rw [Value.Typed, heq] at hassigned
    exact typed_emit (.assign hplace hassigned)
  | globalPtr hkind _ hterms _ htype =>
    have hterms := hs.indexTerms (by simp [hkind]) hterms
    rw [hkind] at hfound
    exact typed_bind htype .done (sumTerms_typed hterms _) (.of_globalPtr hfound)
  | globalLoad hkind hfield hindex htype =>
    refine typed_bound hfound (by rw [hkind]; rfl) htype .done (hasType_fromWord ?_)
    have hindex := hs.fieldIndex (by simp [hkind]) hfield hindex
    exact .word (hs.buffer _ mem_cons_self rfl) hindex rfl
  | globalStore hkind hfield hwritable hv heq hindex =>
    have hindex := hs.fieldIndex (by simp [hkind]) hfield hindex
    have hbuffer := hs.buffer _ mem_cons_self rfl
    rw [buffersWritable_of_compute (checkFieldWritable_eq_ok.1 hwritable).1] at hbuffer
    have hstored := hs.value (by simp [hkind]) hv
    rw [Value.Typed, heq] at hstored
    exact typed_emit (.assign (.word hbuffer hindex) (hasType_toWord hstored))
  | temporary hkind =>
    rw [hkind] at hfound
    exact typed_standIn (.of_temporary hfound)
  | temporaryLoad hkind hslot htype =>
    obtain ⟨hone, hindex⟩ := hs.temporarySlot (by simp [hkind]) hslot
    refine typed_bound hfound (by rw [hkind]; rfl) htype .done ?_
    rw [ValueType.ty, hone]
    exact hasType_fromWord (.word (hs.buffer _ mem_cons_self rfl) hindex rfl)
  | temporaryStore hkind hwritable hslot hv heq =>
    obtain ⟨hone, hindex⟩ := hs.temporarySlot (by simp [hkind]) hslot
    have hbuffer := hs.buffer _ mem_cons_self rfl
    rw [buffersWritable_of_compute (checkWritable_eq_ok.1 hwritable)] at hbuffer
    have hstored := hs.value (by simp [hkind]) hv
    rw [Value.Typed, heq, ValueType.ty, hone] at hstored
    exact typed_emit (.assign (.word hbuffer hindex) (hasType_toWord hstored))
  | @atomicInt op _ _ target v type hkind htarget hv heq hprim htype =>
    have hword := hs.atomicTarget (by simp [hkind]) htarget mem_cons_self
    have hoperand := hs.value (by simp [hkind]) hv
    rw [Value.Typed, heq, hprim] at hoperand
    refine typed_bound hfound (by rw [hkind]; rfl) htype .done ?_
    rw [hprim]
    cases op <;> exact hword.call_two hoperand rfl
  | @atomicFloat op _ _ target v type hkind htarget hv heq hprim htype =>
    have hfloat : target.prim = .f32 := (shaderType_eq_ok.1 htype).1.resolve_left hprim
    have hword := hs.atomicTarget (by simp [hkind]) htarget mem_cons_self
    have hoperand := hs.value (by simp [hkind]) hv
    rw [Value.Typed, heq, hfloat] at hoperand
    refine typed_bound hfound (by rw [hkind]; rfl) htype (exchangeLoop_typed hword hoperand) ?_
    rw [hfloat]
    exact HasType.bitcast (a := ⟨.i32, 1⟩) (.ident mem_cons_self) rfl
  | atomicLoad hkind htarget htype =>
    have hword := hs.atomicTarget (by simp [hkind]) htarget mem_cons_self
    refine typed_bound hfound (by rw [hkind]; rfl) htype .done ?_
    exact hasType_fromWord (hword.call_one rfl)
  | atomicStore hkind htarget hv heq =>
    have hword := hs.atomicTarget (by simp [hkind]) htarget mem_cons_self
    have hstored := hs.value (by simp [hkind]) hv
    rw [Value.Typed, heq] at hstored
    exact typed_emit (.perform (hword.call_two (hasType_toWord hstored) rfl))
  | vertexInput hkind _ htype | fragmentInput hkind _ htype =>
    obtain ⟨-, -, rfl⟩ := shaderType_eq_ok.1 htype
    refine typed_bound hfound (by rw [hkind]; rfl) htype .done ?_
    exact hs.input _ mem_cons_self
  | vertexOutput hkind _ hv htype =>
    obtain ⟨-, -, rfl⟩ := shaderType_eq_ok.1 htype
    have hassigned := hs.value (by simp [hkind]) hv
    exact typed_emit (.assign (hs.output _ mem_cons_self) hassigned)
  | vertexIndex hkind _ htype | instanceIndex hkind _ htype =>
    refine typed_bound hfound (by rw [hkind]; rfl) htype .done ?_
    exact (hs.input _ mem_cons_self).convert (.inl rfl)
  | fragCoord hkind _ htype =>
    refine typed_bound hfound (by rw [hkind]; rfl) htype .done ?_
    exact hs.input _ mem_cons_self
  | position hkind hstage he =>
    exact typed_emit (.assign (hs.position hstage)
      (hs.floatVector (by simp [hkind, BuiltinOutput.operands]) he))
  | color hkind _ he =>
    exact typed_emit (.assign (hs.output _ mem_cons_self)
      (hs.floatVector (by simp [hkind, BuiltinOutput.operands]) he))
  | fragDepth hkind _ he =>
    exact typed_emit (.assign (hs.output _ mem_cons_self)
      (hs.floatOperand (by simp [hkind, BuiltinOutput.operands]) he))
  | derivative hkind _ hv _ hf htype =>
    refine typed_bound hfound (by rw [hkind]; rfl) htype .done ?_
    have hfloat := (hs.value (by simp [hkind]) hv).coerce .f32 (.inl rfl)
    rcases hf with rfl | rfl <;> exact hfloat.call_one rfl
  | extract hkind hv hin hselector htype =>
    refine typed_bound hfound (by rw [hkind]; rfl) htype .done ?_
    exact .select (hs.value (by simp [hkind]) hv) (member?_component hin hselector)
  | ret hkind _ _ hwords =>
    refine ⟨[], returnLines_typed (hs.buffer _ mem_cons_self rfl)
      (hs.operandWords (by simp [hkind]) hwords) 0, fun v hv => by cases hv⟩
  | sample hkind | sampleLod hkind | textureLoad hkind | textureStore hkind =>
    rw [hkind] at htexture
    cases htexture

end Codegen

end WgslKernel
