import WgslKernel.Proofs.Access.Reach
import WgslKernel.Proofs.Typing.Shapes

/-!
# How lowering a statement can fail

Generation ends with a result, an error about the kernel, or a fault.  `Grounds` lists what is known
about the last two when they come from one statement.  One pass over everything that is done with a
statement shows that there are always grounds, unless the slots have run out.
-/

namespace WgslKernel

variable {α β : Type}

/-! ## Kinds of failures -/

/-- A module has a statement numbered `x`. -/
def Module.Has (m : Module) (x : StmtId) : Prop := ∃ kind, m.kind? x = some kind

/-- What generation needs of a statement. -/
structure Module.Operable (m : Module) (kind : Kind) : Prop where
  operands : ∀ x ∈ kind.operands, m.Has x
  component : ∀ x index, kind = .extract x index → index < 4

/-- The statement that an error says is computed elsewhere. -/
@[simp] def CodegenError.foreign? : CodegenError → Option StmtId
  | crossOffloadReference _ x => some x
  | _ => none

/-- Errors about the shapes of values. -/
@[simp] def CodegenError.isShape : CodegenError → Bool
  | unsupportedType _ (.badComponentCount _) | typeMismatch _ (.operandShapes ..) => true
  | _ => false

namespace Codegen

/-- There is no value for `x` at hand: it has no entry in the table, and is not a constant. -/
structure Context.Lacks (ctx : Context) (values : Values) (x : StmtId) : Prop where
  lookup : values.lookup x = none
  notConst : ∀ c, ctx.module.kind? x ≠ some (.const c)

/-- An index that a statement reads is that of a loop around it. -/
def Context.Indexes (ctx : Context) (s : Stmt) : Prop :=
  ∀ loop, s.kind = .loopIndex loop → loop ∈ ctx.module.enclosing s.block

/-- What is known when lowering statement `s` ends without a result. -/
@[simp] def Grounds (ctx : Context) (values : Values) (s : Stmt) : Halt → Prop
  | .fault _ => ¬ ctx.module.Operable s.kind
  | .error e => e.stmt = s.id ∧
    (ctx.Indexes s → ∀ y, e.foreign? = some y → y ∈ s.kind.operands ∧ ctx.Lacks values y) ∧
    (Values.IsPlain values → e.isShape = false)

/-- A computation that ends without a result only on such grounds. -/
def Grounded (ctx : Context) (values : Values) (s : Stmt) (x : Except Halt α) : Prop :=
  ∀ halt, x = .error halt → Grounds ctx values s halt

variable {ctx : Context} {values : Values} {x y ptr : StmtId} {s t : Stmt} {st st' : State}
  {ty : ValueType} {v : Value} {o : Outline}

attribute [local simp] Kind.operands CodegenError.stmt

/-! ## Putting computations together -/

@[simp] theorem grounded_ok (a : α) : Grounded ctx values s (.ok a : Except Halt α) := by
  intro halt h
  cases h

@[simp] theorem grounded_refuse {e : CodegenError} :
    Grounded ctx values s (refuse e : Except Halt α) ↔ Grounds ctx values s (.error e) := by
  constructor
  · exact fun h => h _ rfl
  · rintro h halt hhalt
    cases hhalt
    exact h

@[simp] theorem grounded_mismatch {cause : Mismatch} :
    Grounded ctx values s (mismatch s.id cause : Except Halt α) ↔
      Grounds ctx values s (.error (.typeMismatch s.id cause)) := grounded_refuse

/-- Grounds go through a sequence. -/
theorem Grounded.bind {x : Except Halt α} {f : α → Except Halt β} (hx : Grounded ctx values s x)
    (hf : ∀ a, x = .ok a → Grounded ctx values s (f a)) : Grounded ctx values s (x >>= f) := by
  intro halt h
  rcases bind_eq_error.1 h with hxe | ⟨a, hxa, hfe⟩
  · exact hx halt hxe
  · exact hf a hxa halt hfe

theorem Grounded.mapM {f : α → Except Halt β} {l : List α}
    (h : ∀ a ∈ l, Grounded ctx values s (f a)) : Grounded ctx values s (l.mapM f) := by
  induction l with
  | nil => exact grounded_ok []
  | cons a l ih =>
    obtain ⟨ha, hl⟩ := List.forall_mem_cons.1 h
    rw [List.mapM_cons]
    exact ha.bind fun _ _ => (ih hl).bind fun _ _ => grounded_ok _

/-! ## Checks -/

/-- A type has a name, or is no type of shaders; its width is to blame only for odd shapes. -/
theorem grounded_shaderType
    (h : Values.IsPlain values → 1 ≤ ty.components ∧ ty.components ≤ 4) :
    Grounded ctx values s (shaderType s.id ty) := by
  unfold shaderType ValueType.shaderType
  cases ty.prim with
  | i64 | f64 => simp [Prim.scalar?, bind, Except.bind]
  | i32 | f32 =>
    by_cases hc : 1 ≤ ty.components ∧ ty.components ≤ 4
    · simp [Prim.scalar?, bind, Except.bind, hc]
    · simp only [Prim.scalar?, bind, Except.bind, hc, if_false]
      exact grounded_refuse.2 ⟨rfl, by simp, fun hvalues => absurd (h hvalues) hc⟩

theorem count_of_isPlain (h : ty.IsPlain) : 1 ≤ ty.components ∧ ty.components ≤ 4 := by
  rcases h.2 with h | h <;> simp [h]

theorem count_ofPrim (p : Prim) :
    1 ≤ (ValueType.ofPrim p).components ∧ (ValueType.ofPrim p).components ≤ 4 := by
  simp [ValueType.ofPrim]

theorem grounded_define {e : Expr} {before : Code} {uses : List Use}
    (h : Values.IsPlain values → 1 ≤ ty.components ∧ ty.components ≤ 4) :
    Grounded ctx values s (Lowering.define s.id ty e before uses) :=
  (grounded_shaderType h).bind fun _ _ => grounded_ok _

@[simp] theorem grounded_define_ofPrim {p : Prim} {e : Expr} {before : Code} {uses : List Use} :
    Grounded ctx values s (Lowering.define s.id (.ofPrim p) e before uses) :=
  grounded_define fun _ => count_ofPrim p

@[simp] theorem grounded_checkPrim (p : Prim) : Grounded ctx values s (checkPrim s.id p) := by
  unfold checkPrim
  cases p <;> simp [Prim.scalar?]

@[simp] theorem grounded_requireType : Grounded ctx values s (requireType s.id v ty) := by
  unfold requireType
  split <;> simp

@[simp] theorem grounded_requireStage {stage : Stage} :
    Grounded ctx values s (ctx.requireStage s stage) := by
  unfold Context.requireStage
  split <;> simp [Context.noHandler]

@[simp] theorem grounded_checkWritable {r : Resource} :
    Grounded ctx values s (ctx.checkWritable s.id r) := by
  unfold Context.checkWritable
  split <;> simp

@[simp] theorem grounded_checkFieldWritable {f : Field} :
    Grounded ctx values s (checkFieldWritable ctx s.id f) := by
  refine grounded_checkWritable.bind fun _ _ => ?_
  split <;> simp

@[simp] theorem grounded_requireInteger {op : String} :
    Grounded ctx values s (requireInteger s.id op v) := by
  unfold requireInteger
  split <;> simp

@[simp] theorem grounded_requireScalar {op : String} :
    Grounded ctx values s (requireScalar s.id op v) := by
  unfold requireScalar
  split <;> simp

/-! ## Operands -/

/-- A kind is not found only where there is no statement. -/
theorem kindOf_eq_error {halt : Halt} (h : ctx.kindOf x = .error halt) :
    ¬ ctx.module.Has x ∧ ∃ f, halt = .fault f := by
  constructor
  · rintro ⟨kind, hkind⟩
    cases (kindOf_eq_ok.2 hkind).symm.trans h
  · rcases bind_eq_error.1 h with h | ⟨_, -, h⟩
    · cases hstmt : ctx.module.stmt x with
      | ok s => rw [hstmt] at h; cases h
      | error f =>
        rw [hstmt] at h
        exact ⟨f, (Except.error.inj h).symm⟩
    · cases h

theorem grounded_kindOf (hx : x ∈ s.kind.operands) : Grounded ctx values s (ctx.kindOf x) := by
  intro halt h
  obtain ⟨hnone, f, rfl⟩ := kindOf_eq_error h
  exact fun hop => hnone (hop.operands x hx)

/-- **An operand is missing only if there is no value for it at hand.** -/
theorem grounded_value (hx : x ∈ s.kind.operands) :
    Grounded ctx values s (ctx.value values s.id x) := by
  unfold Context.value
  split
  · exact grounded_ok _
  · rename_i hlookup
    refine (grounded_kindOf hx).bind fun k hk => ?_
    split
    · exact grounded_ok _
    · rename_i hconst
      refine grounded_refuse.2 ⟨rfl, fun _ y hy => ?_, fun _ => rfl⟩
      cases hy
      refine ⟨hx, hlookup, fun c hc => ?_⟩
      rw [kindOf_eq_ok.1 hk] at hc
      exact hconst c (Option.some.inj hc)

theorem grounded_scalar (hx : x ∈ s.kind.operands) :
    Grounded ctx values s (ctx.scalar values s.id x) := by
  refine (grounded_value hx).bind fun v _ => ?_
  split <;> simp

theorem grounded_floatOperand (hx : x ∈ s.kind.operands) :
    Grounded ctx values s (floatOperand ctx values s.id x) :=
  (grounded_scalar hx).bind fun _ _ => (grounded_checkPrim _).bind fun _ _ => grounded_ok _

theorem grounded_floatVector {q : Quad} (hq : ∀ x ∈ q.toList, x ∈ s.kind.operands) :
    Grounded ctx values s (floatVector ctx values s.id q) :=
  (Grounded.mapM fun x hx => grounded_floatOperand (hq x hx)).bind fun _ _ => grounded_ok _

theorem grounded_operandWords {xs : List StmtId} (hxs : ∀ x ∈ xs, x ∈ s.kind.operands) :
    Grounded ctx values s (operandWords ctx values s.id xs) := by
  induction xs with
  | nil => exact grounded_ok []
  | cons x xs ih =>
    obtain ⟨hx, hxs⟩ := List.forall_mem_cons.1 hxs
    refine (grounded_scalar hx).bind fun v _ => (grounded_checkPrim _).bind fun _ _ => ?_
    exact (ih hxs).bind fun _ _ => grounded_ok _

theorem grounded_indexTerms {xs : List StmtId} {strides : List Nat}
    (hxs : ∀ x ∈ xs, x ∈ s.kind.operands) :
    Grounded ctx values s (indexTerms ctx values s.id xs strides) := by
  induction xs generalizing strides with
  | nil => exact grounded_ok []
  | cons x xs ih =>
    obtain ⟨hx, hxs⟩ := List.forall_mem_cons.1 hxs
    cases strides with
    | nil => exact grounded_ok []
    | cons k ks =>
      refine (grounded_value hx).bind fun v _ => ?_
      split
      · exact (ih hxs).bind fun _ _ => grounded_ok _
      · simp

/-! ## Arithmetic -/

theorem grounded_unaryExpr {op : UnaryOp} : Grounded ctx values s (unaryExpr s.id op v) := by
  cases op with
  | round | floor | ceil =>
    unfold unaryExpr
    dsimp only
    split <;> simp
  | bitNot => exact grounded_requireInteger.bind fun _ _ => grounded_ok _
  | logicNot => exact grounded_requireScalar.bind fun _ _ => grounded_ok _
  | _ => exact grounded_ok _

theorem grounded_binaryExpr {op : BinaryOp} {a b : Value} {n : Nat} :
    Grounded ctx values s (binaryExpr s.id op a b n) := by
  have hscalars : Grounded ctx values s
      (do requireScalar s.id op.name a; requireScalar s.id op.name b) :=
    grounded_requireScalar.bind fun _ _ => grounded_requireScalar
  cases op with
  | floorDiv | mod =>
    unfold binaryExpr
    dsimp only
    split
    · exact grounded_ok _
    · exact hscalars.bind fun _ _ => grounded_ok _
  | pow =>
    unfold binaryExpr
    dsimp only
    split <;> simp
  | logicalOr | logicalAnd => exact hscalars.bind fun _ _ => grounded_ok _
  | _ => exact grounded_ok _

theorem grounded_lowerUnary {op : UnaryOp} (hx : x ∈ s.kind.operands) :
    Grounded ctx values s (lowerUnary ctx values s.id op x) := by
  refine (grounded_value hx).bind fun v hv => (grounded_checkPrim _).bind fun _ _ => ?_
  refine grounded_unaryExpr.bind ?_
  rintro ⟨ty, e⟩ he
  exact grounded_define fun hvalues => count_of_isPlain (unaryExpr_isPlain (hvalues.value hv) he)

theorem grounded_joinComponents {op : BinaryOp} {a b : ValueType}
    (h : Values.IsPlain values → ∃ n, joinComponents s.id op a b = .ok n ∧ (n = 1 ∨ n = 4)) :
    Grounded ctx values s (joinComponents s.id op a b) := by
  intro halt hhalt
  have heq : halt = .error (.typeMismatch s.id (.operandShapes op a b)) := by
    unfold joinComponents at hhalt
    split at hhalt
    · cases hhalt
    · split at hhalt
      · cases hhalt
      · exact (Except.error.inj hhalt).symm
  subst heq
  refine ⟨rfl, by simp, fun hvalues => ?_⟩
  obtain ⟨n, hn, -⟩ := h hvalues
  cases hn.symm.trans hhalt

/-- Plain operands of a binary operator have the same shape, or one of them is a scalar. -/
theorem grounded_lowerBinary {op : BinaryOp} (hx : x ∈ s.kind.operands)
    (hy : y ∈ s.kind.operands) : Grounded ctx values s (lowerBinary ctx values s.id op x y) := by
  refine (grounded_value hx).bind fun a ha => (grounded_value hy).bind fun b hb => ?_
  refine (grounded_checkPrim _).bind fun _ _ => (grounded_checkPrim _).bind fun _ _ => ?_
  have hcount (hvalues : Values.IsPlain values) :=
    joinComponents_of_isPlain s.id op (hvalues.value ha) (hvalues.value hb)
  refine (grounded_joinComponents hcount).bind fun n hn => ?_
  have hexpr : Grounded ctx values s (binaryExpr s.id op a b n >>= fun r =>
      Lowering.define s.id r.1 r.2.1 r.2.2) := by
    refine grounded_binaryExpr.bind ?_
    rintro ⟨ty, e, before⟩ he
    refine grounded_define fun hvalues => count_of_isPlain ?_
    obtain ⟨n', hn', hcount⟩ := hcount hvalues
    cases hn.symm.trans hn'
    exact binaryExpr_isPlain hcount he
  dsimp only
  split
  · exact grounded_requireInteger.bind fun _ _ => grounded_requireInteger.bind fun _ _ => hexpr
  · exact hexpr

/-- The component that is taken has been checked against the vector, which has at most four. -/
theorem grounded_lowerExtract {index : Nat} (hkind : s.kind = .extract x index) :
    Grounded ctx values s (lowerExtract ctx values s.id x index) := by
  refine (grounded_value (by simp [hkind])).bind fun v _ => ?_
  split
  · simp
  · split
    · exact grounded_define_ofPrim
    · rename_i hnone
      intro halt h
      cases h
      intro hop
      match index, hop.component x index hkind with
      | 0, _ | 1, _ | 2, _ | 3, _ => cases hnone

/-! ## Memory -/

@[simp] theorem grounded_fieldStrides {f : Field} :
    Grounded ctx values s (fieldStrides s.id f) := by
  unfold fieldStrides
  split <;> simp

@[simp] theorem grounded_fieldElements {f : Field} :
    Grounded ctx values s (fieldElements s.id f) := by
  unfold fieldElements
  split <;> simp

@[simp] theorem grounded_temporaryWord {config : Config} {offset : Nat} :
    Grounded ctx values s (temporaryWord config s.id offset) := by
  unfold temporaryWord
  split
  · simp
  · split <;> simp

theorem grounded_fieldOf (hx : x ∈ s.kind.operands) :
    Grounded ctx values s (fieldOf ctx s.id x) := by
  refine (grounded_kindOf hx).bind fun k _ => ?_
  split <;> simp

theorem grounded_temporarySlot (hx : x ∈ s.kind.operands) :
    Grounded ctx values s (temporarySlot ctx values s.id x) := by
  refine (grounded_kindOf hx).bind fun k _ => ?_
  split
  · exact grounded_value hx
  · simp

theorem grounded_atomicTarget {write : Bool} (hx : x ∈ s.kind.operands) :
    Grounded ctx values s (atomicTarget ctx values s.id x write) := by
  have hindex {f : Value → AtomicTarget} :
      Grounded ctx values s (ctx.value values s.id x >>= fun v => .ok (f v)) :=
    (grounded_value hx).bind fun _ _ => grounded_ok _
  refine (grounded_kindOf hx).bind fun k _ => ?_
  split
  · dsimp only
    split
    · exact grounded_checkFieldWritable.bind fun _ _ => hindex
    · exact grounded_checkWritable.bind fun _ _ => hindex
  · exact grounded_checkWritable.bind fun _ _ => hindex
  · simp

/-! ## Interfaces -/

@[simp] theorem grounded_checkVarying {type : ShaderType} {location : Nat} :
    Grounded ctx values s (checkVarying ctx s.id type location) := by
  unfold checkVarying
  dsimp only
  split
  · simp
  · split <;> simp

@[simp] theorem grounded_useTexture {texture : Texture} :
    Grounded ctx values s (useTexture s.id texture) := by
  unfold useTexture
  split <;> simp

@[simp] theorem grounded_useStorageTexture {texture : Texture} :
    Grounded ctx values s (useStorageTexture s.id texture) := by
  unfold useStorageTexture
  split
  · simp
  · split <;> simp

theorem grounded_texel {texture : Texture} {e : Expr} {uses : List Use} :
    Grounded ctx values s (Lowering.define s.id (texelType texture) e .done uses) :=
  grounded_define fun _ => count_of_isPlain (texelType_isPlain texture)

theorem grounded_sampleTexture {texture : Texture} {coords : List Value} {level : Option Value} :
    Grounded ctx values s (sampleTexture ctx s.id texture coords level) :=
  grounded_useTexture.bind fun _ _ => grounded_texel

theorem grounded_lowerTexture {access : TextureAccess} {texture : Texture} {coords : List StmtId}
    (hkind : s.kind = .texture access texture coords) :
    Grounded ctx values s (lowerTexture ctx values s.id access texture coords) := by
  have hcoords (x : StmtId) (hx : x ∈ coords) : x ∈ s.kind.operands := by
    simp [hkind, hx]
  have hops (x : StmtId) (hx : x ∈ access.operands) : x ∈ s.kind.operands := by
    simp [hkind, hx]
  refine (Grounded.mapM fun x hx => grounded_scalar (hcoords x hx)).bind fun cs _ => ?_
  cases access with
  | sample => exact grounded_sampleTexture
  | sampleLod level =>
    exact (grounded_scalar (hops level (by simp [TextureAccess.operands]))).bind fun _ _ =>
      grounded_sampleTexture
  | load =>
    dsimp only
    split
    · simp
    · exact grounded_useTexture.bind fun _ _ => grounded_texel
  | store texel =>
    exact grounded_checkWritable.bind fun _ _ => (grounded_floatVector hops).bind fun _ _ =>
      grounded_useStorageTexture.bind fun _ _ => grounded_ok _

theorem grounded_lowerBuiltinOutput {output : BuiltinOutput}
    (hops : ∀ x ∈ output.operands, x ∈ s.kind.operands) :
    Grounded ctx values s (lowerBuiltinOutput ctx values s output) := by
  cases output with
  | position | color =>
    exact (grounded_floatVector hops).bind fun _ _ =>
      grounded_requireStage.bind fun _ _ => grounded_ok _
  | fragDepth x =>
    exact (grounded_floatOperand (hops x (by simp [BuiltinOutput.operands]))).bind fun _ _ =>
      grounded_requireStage.bind fun _ _ => grounded_ok _

/-- **Lowering a statement fails on grounds.** -/
theorem grounded_lower : Grounded ctx values s (lower ctx values s) := by
  unfold lower
  cases hkind : s.kind with
  | const | exitLoop | nextIteration | branch | whileTrue | rangeFor => exact grounded_ok _
  | vertexFor | fragmentFor => simp [Context.noHandler]
  | loopIndex loop =>
    dsimp only
    unfold lowerLoopIndex
    split
    · exact grounded_ok _
    · split
      · exact grounded_ok _
      · rename_i hout
        exact grounded_refuse.2
          ⟨rfl, fun hindexes => absurd (hindexes loop hkind) hout, fun _ => rfl⟩
  | argLoad ty arg =>
    refine (grounded_checkPrim _).bind fun _ _ => ?_
    split <;> simp
  | rand =>
    exact (grounded_checkPrim _).bind fun _ _ =>
      grounded_define_ofPrim.bind fun _ _ => grounded_ok _
  | unary op x => exact grounded_lowerUnary (by simp [hkind])
  | binary op x y =>
    exact grounded_lowerBinary (by simp [hkind]) (by simp [hkind])
  | alloca ty => exact (grounded_shaderType fun _ => count_ofPrim ty).bind fun _ _ => grounded_ok _
  | localLoad ptr =>
    refine (grounded_value (by simp [hkind])).bind fun v hv => ?_
    exact grounded_define fun hvalues => count_of_isPlain (hvalues.value hv)
  | localStore ptr x =>
    refine (grounded_value (by simp [hkind])).bind fun _ _ => ?_
    refine (grounded_value (by simp [hkind])).bind fun _ _ => ?_
    exact grounded_requireType.bind fun _ _ => grounded_ok _
  | globalPtr f indices offset =>
    refine (grounded_checkPrim _).bind fun _ _ => grounded_fieldStrides.bind fun _ _ => ?_
    refine (grounded_indexTerms (by simp [hkind])).bind fun _ _ => ?_
    split <;> simp
  | globalLoad ptr =>
    refine (grounded_fieldOf (by simp [hkind])).bind fun _ _ => ?_
    exact (grounded_value (by simp [hkind])).bind fun _ _ => grounded_define_ofPrim
  | globalStore ptr x =>
    refine (grounded_fieldOf (by simp [hkind])).bind fun _ _ => ?_
    refine grounded_checkFieldWritable.bind fun _ _ => ?_
    refine (grounded_value (by simp [hkind])).bind fun _ _ => ?_
    refine grounded_requireType.bind fun _ _ => ?_
    exact (grounded_value (by simp [hkind])).bind fun _ _ => grounded_ok _
  | temporary =>
    exact (grounded_checkPrim _).bind fun _ _ =>
      grounded_temporaryWord.bind fun _ _ => grounded_ok _
  | temporaryLoad ptr =>
    refine (grounded_temporarySlot (by simp [hkind])).bind fun slot hslot => ?_
    exact grounded_define fun hvalues =>
      count_of_isPlain (hvalues.value (temporarySlot_eq_ok hslot))
  | temporaryStore ptr x =>
    refine grounded_checkWritable.bind fun _ _ => ?_
    refine (grounded_temporarySlot (by simp [hkind])).bind fun _ _ => ?_
    refine (grounded_value (by simp [hkind])).bind fun _ _ => ?_
    exact grounded_requireType.bind fun _ _ => grounded_ok _
  | atomic op dest x =>
    refine (grounded_atomicTarget (by simp [hkind])).bind fun target _ => ?_
    refine (grounded_value (by simp [hkind])).bind fun v _ => ?_
    refine grounded_requireType.bind fun _ _ => ?_
    split <;> exact grounded_define_ofPrim
  | atomicLoad ptr =>
    refine (grounded_atomicTarget (by simp [hkind])).bind fun _ _ => ?_
    exact grounded_define_ofPrim
  | atomicStore ptr x =>
    refine (grounded_atomicTarget (by simp [hkind])).bind fun _ _ => ?_
    refine (grounded_value (by simp [hkind])).bind fun _ _ => ?_
    exact grounded_requireType.bind fun _ _ => grounded_ok _
  | vertexInput ty =>
    refine grounded_requireStage.bind fun _ _ => ?_
    refine (grounded_shaderType fun _ => count_ofPrim ty).bind fun _ _ => ?_
    exact grounded_define_ofPrim.bind fun _ _ => grounded_ok _
  | vertexOutput x location =>
    refine grounded_requireStage.bind fun _ _ => ?_
    refine (grounded_value (by simp [hkind])).bind fun v hv => ?_
    refine (grounded_shaderType fun hvalues => ?_).bind fun _ _ => grounded_ok _
    exact count_of_isPlain (hvalues.value hv)
  | fragmentInput ty =>
    refine grounded_requireStage.bind fun _ _ => ?_
    refine (grounded_shaderType fun _ => count_ofPrim ty).bind fun _ _ => ?_
    refine grounded_checkVarying.bind fun _ _ => ?_
    exact grounded_define_ofPrim.bind fun _ _ => grounded_ok _
  | builtinInput input =>
    cases input with
    | vertexIndex | instanceIndex =>
      refine grounded_requireStage.bind fun _ _ => ?_
      exact grounded_define_ofPrim.bind fun _ _ => grounded_ok _
    | fragCoord =>
      refine grounded_requireStage.bind fun _ _ => ?_
      exact (grounded_define fun _ => by decide).bind fun _ _ => grounded_ok _
  | builtinOutput output => exact grounded_lowerBuiltinOutput (by simp [hkind])
  | derivative axis x =>
    refine grounded_requireStage.bind fun _ _ => ?_
    refine (grounded_value (by simp [hkind])).bind fun v hv => ?_
    refine (grounded_checkPrim _).bind fun _ _ => ?_
    exact grounded_define fun hvalues => count_of_isPlain (hvalues.value hv).floats
  | discard => exact grounded_requireStage.bind fun _ _ => grounded_ok _
  | texture access texture coords => exact grounded_lowerTexture hkind
  | extract x index => exact grounded_lowerExtract hkind
  | ret operands =>
    refine grounded_requireStage.bind fun _ _ => ?_
    split
    · simp
    · exact (grounded_operandWords (by simp [hkind])).bind fun _ _ => grounded_ok _

/-! ## Taking in what a statement contributes -/

/-- A member clashes with one of its name. -/
theorem grounded_addMember {members : List StageMember} {m : StageMember} :
    Grounded ctx values s (State.addMember s.id members m) := by
  unfold State.addMember
  split
  · exact grounded_ok _
  · split <;> simp

/-- Taking in a contribution fails for want of a slot, or at a member of an interface. -/
theorem apply_eq_error {id : StmtId} {l : Lowering} {halt : Halt}
    (h : st.apply id l = .error halt) :
    (∃ f, l.uses.foldlM State.use st = .error f ∧ halt = .fault f) ∨
      ∃ members member, State.addMember id members member = .error halt := by
  rcases bind_eq_error.1 h with h | ⟨st₁, -, h⟩
  · exact .inl (orFault_eq_error.1 h)
  rcases bind_eq_error.1 h with h | ⟨inputs, -, h⟩
  · obtain ⟨members, member, -, h⟩ := exists_of_foldlM_eq_error h
    exact .inr ⟨members, member, h⟩
  rcases bind_eq_error.1 h with h | ⟨outputs, -, h⟩
  · obtain ⟨members, member, -, h⟩ := exists_of_foldlM_eq_error h
    exact .inr ⟨members, member, h⟩
  · cases h

theorem grounded_branchCondition (hx : x ∈ s.kind.operands) :
    Grounded ctx values s (branchCondition ctx values s.id x) :=
  (grounded_scalar hx).bind fun _ _ => grounded_ok _

theorem grounded_loopBound {bound : RangeBound} {serial : Bool} {body : BlockId}
    (hkind : s.kind = .rangeFor bound serial body) :
    Grounded ctx values s (loopBound ctx values s.id bound) := by
  cases bound with
  | value x =>
    refine (grounded_scalar (by simp [hkind])).bind fun v _ => ?_
    split <;> simp
  | field f => exact grounded_fieldElements.bind fun _ _ => grounded_ok _

/-- How finding the bound of a parallel loop fails. -/
inductive BoundFails (ctx : Context) (root : StmtId) (bound : RangeBound) : Halt → Prop where
  | missing {x : StmtId} {f : Fault} (hx : ¬ ctx.module.Has x)
    (h : bound = .value x ∨
      ∃ load, bound = .value load ∧ ctx.module.kind? load = some (.temporaryLoad x)) :
    BoundFails ctx root bound (.fault f)
  | foreign {x : StmtId} (hbound : bound = .value x)
    (hconst : ∀ c, ctx.module.kind? x ≠ some (.const c))
    (hload : ∀ ptr, ctx.module.kind? x ≠ some (.temporaryLoad ptr)) :
    BoundFails ctx root bound (.error (.crossOffloadReference root x))
  | float : BoundFails ctx root bound (.error (.typeMismatch root (.rangeBound (.ofPrim .f32))))
  | dynamic : BoundFails ctx root bound (.error (.typeMismatch root .dynamicBound))
  | size (f : Field) : BoundFails ctx root bound (.error (.fieldOutOfRange root f.id))
  | misaligned {ptr : StmtId} {offset : Nat}
    (hptr : ctx.module.kind? ptr = some (.temporary .i32 offset)) :
    BoundFails ctx root bound (.error (.misalignedTemporary ptr offset))
  | outside {ptr : StmtId} {offset : Nat}
    (hptr : ctx.module.kind? ptr = some (.temporary .i32 offset))
    (hout : ctx.config.globalTmpsBytes < offset + 4) :
    BoundFails ctx root bound
      (.error (.undeclaredResource ptr (.temporary offset ctx.config.globalTmpsBytes)))

/-- The bound of a loop fails for a reason. -/
theorem boundFails_of_gridBound {root : StmtId} {bound : RangeBound} {halt : Halt}
    (h : gridBound ctx root bound = .error halt) : BoundFails ctx root bound halt := by
  cases bound with
  | field f =>
    rcases bind_eq_error.1 h with h | ⟨n, -, h⟩
    · unfold fieldElements at h
      split at h
      · cases h
      · cases h
        exact .size f
    · cases h
  | value v =>
    rcases bind_eq_error.1 h with h | ⟨kind, hkind, h⟩
    · obtain ⟨hv, f, rfl⟩ := kindOf_eq_error h
      exact .missing hv (.inl rfl)
    rw [kindOf_eq_ok] at hkind
    split at h
    · cases h
    · cases h
      exact .float
    · rcases bind_eq_error.1 h with h | ⟨kind', hptr, h⟩
      · obtain ⟨hptr, f, rfl⟩ := kindOf_eq_error h
        exact .missing hptr (.inr ⟨v, rfl, hkind⟩)
      rw [kindOf_eq_ok] at hptr
      split at h
      · rcases bind_eq_error.1 h with h | ⟨word, -, h⟩
        · unfold temporaryWord at h
          split at h
          · cases h
            exact .misaligned hptr
          · split at h
            · cases h
              exact .outside hptr ‹_›
            · cases h
        · cases h
      · cases h
        exact .dynamic
    · rename_i hint hfloat hload
      cases h
      refine .foreign rfl (fun c hc => ?_) fun ptr hptr => ?_
      · rw [hkind] at hc
        cases c with
        | i32 n => exact hint n (Option.some.inj hc)
        | f32 bits => exact hfloat bits (Option.some.inj hc)
      · rw [hkind] at hptr
        exact hload ptr (Option.some.inj hptr)

/-! ## Where a walk fails -/

theorem Reaches.mem (h : Reaches ctx st o st' t) : t ∈ o.stmts := by
  induction h with
  | here => simp [Outline.stmts]
  | thenPart _ _ _ ih | elsePart _ _ _ _ ih | loopBody _ _ ih | countBody _ _ _ ih
  | later _ _ ih => simp [Outline.stmts, ih]

/-- What goes wrong with a statement, at a state of the walk. -/
inductive FailsAt (ctx : Context) (st : State) (t : Stmt) (e : Halt) : Prop where
  | lower (h : lower ctx st.values t = .error e)
  | uses {l : Lowering} {f : Fault} (hlower : Codegen.lower ctx st.values t = .ok l)
    (h : l.uses.foldlM State.use st = .error f) (he : e = .fault f)
  | member {members : List StageMember} {member : StageMember}
    (h : State.addMember t.id members member = .error e)
  | branch {cond : StmtId} {b₁ b₂ : BlockId} (hkind : t.kind = .branch cond b₁ b₂)
    (h : branchCondition ctx st.values t.id cond = .error e)
  | count {bound : RangeBound} {serial : Bool} {b : BlockId}
    (hkind : t.kind = .rangeFor bound serial b)
    (h : loopBound ctx st.values t.id bound = .error e)

/-- **A walk that fails has come to the statement at which it fails.** -/
theorem failsAt_of_walk {e : Halt} (h : walk ctx st o = .error e) :
    ∃ st' t, Reaches ctx st o st' t ∧ FailsAt ctx st' t e := by
  induction o generalizing st with
  | nil => cases h
  | cons s first second rest ihFirst ihSecond ihRest =>
    rw [walk_cons] at h
    rcases bind_eq_error.1 h with h | ⟨⟨st₁, c⟩, hdone, h⟩
    · rw [walk] at h
      split at h
      · rename_i cond b₁ b₂ hkind
        rcases bind_eq_error.1 h with h | ⟨c, hcond, h⟩
        · exact ⟨st, s, .here, .branch hkind h⟩
        rcases bind_eq_error.1 h with h | ⟨⟨st₁, yes⟩, hyes, h⟩
        · obtain ⟨st', t, hreach, hfails⟩ := ihFirst h
          exact ⟨st', t, .thenPart hkind hcond hreach, hfails⟩
        rcases bind_eq_error.1 h with h | ⟨⟨st₂, no⟩, hno, h⟩
        · obtain ⟨st', t, hreach, hfails⟩ := ihSecond h
          exact ⟨st', t, .elsePart hkind hcond hyes hreach, hfails⟩
        · dsimp only [walk, ok_bind] at h
          split at h <;> cases h
      · rename_i b hkind
        rcases bind_eq_error.1 h with h | ⟨⟨st₁, body⟩, -, h⟩
        · obtain ⟨st', t, hreach, hfails⟩ := ihFirst h
          exact ⟨st', t, .loopBody hkind hreach, hfails⟩
        · cases h
      · rename_i bound serial b hkind
        rcases bind_eq_error.1 h with h | ⟨stop, hstop, h⟩
        · exact ⟨st, s, .here, .count hkind h⟩
        rcases bind_eq_error.1 h with h | ⟨⟨st₁, body⟩, -, h⟩
        · obtain ⟨st', t, hreach, hfails⟩ := ihFirst h
          exact ⟨st', t, .countBody hkind hstop hreach, hfails⟩
        · cases h
      · rcases bind_eq_error.1 h with h | ⟨l, hl, h⟩
        · exact ⟨st, s, .here, .lower h⟩
        rcases bind_eq_error.1 h with h | ⟨st₁, -, h⟩
        · rcases apply_eq_error h with ⟨f, h, he⟩ | ⟨members, member, h⟩
          · exact ⟨st, s, .here, .uses hl h he⟩
          · exact ⟨st, s, .here, .member h⟩
        · cases h
    · rcases bind_eq_error.1 h with h | ⟨⟨st₂, tail⟩, -, h⟩
      · obtain ⟨st', t, hreach, hfails⟩ := ihRest h
        exact ⟨st', t, .later hdone hreach, hfails⟩
      · cases h

/-- **There are always grounds**, other than that there is no slot left. -/
theorem FailsAt.grounds {halt : Halt} (h : FailsAt ctx st t halt) :
    Grounds ctx st.values t halt ∨ ∃ l f, Codegen.lower ctx st.values t = .ok l ∧
      l.uses.foldlM State.use st = .error f ∧ halt = .fault f := by
  cases h with
  | lower h => exact .inl (grounded_lower halt h)
  | uses hlower h he => exact .inr ⟨_, _, hlower, h, he⟩
  | member h => exact .inl (grounded_addMember halt h)
  | branch hkind h => exact .inl (grounded_branchCondition (by simp [hkind]) halt h)
  | count hkind h => exact .inl (grounded_loopBound hkind halt h)

/-- A failed statement has grounds. -/
theorem FailsAt.grounds_error {e : CodegenError} (h : FailsAt ctx st t (.error e)) :
    Grounds ctx st.values t (.error e) := by
  rcases h.grounds with h | ⟨_, _, -, -, he⟩
  · exact h
  · cases he

end Codegen

end WgslKernel
