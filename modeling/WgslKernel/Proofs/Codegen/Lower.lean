import WgslKernel.Proofs.Codegen.Walk

/-!
# What a statement was lowered to

`lower` chooses among some thirty lowerings and refuses what does not fit.  `Lowers` lists the
outcomes, one rule for each form of code with the checks that were passed, so that whatever is said
about lowered statements is a case split over the rules.
-/

namespace WgslKernel.Codegen

open List

/-- The lowering that binds an expression to the temporary of statement `id`. -/
def Lowering.bound (id : StmtId) (t : ValueType) (type : ShaderType) (e : Expr)
    (before : Code := .done) (uses : List Use := []) : Lowering :=
  { code := before ++ Code.line (.letBind (.temp id) (some type) e) .done
    value := some ⟨.ident (.temp id), t⟩
    uses }

theorem define_eq_ok {id : StmtId} {t : ValueType} {e : Expr} {before : Code} {uses : List Use}
    {l : Lowering} : Lowering.define id t e before uses = .ok l ↔
      ∃ type, shaderType id t = .ok type ∧ l = .bound id t type e before uses := by
  rw [Lowering.define, bind_eq_ok]
  constructor
  · rintro ⟨type, htype, h⟩
    cases h
    exact ⟨type, htype, rfl⟩
  · rintro ⟨type, htype, rfl⟩
    exact ⟨type, htype, rfl⟩

variable {ctx : Context} {values : Values} {s : Stmt} {l : Lowering}

/-- The ways in which a statement that owns no blocks is lowered. -/
inductive Lowers (ctx : Context) (values : Values) (s : Stmt) : Lowering → Prop where
  | const {c : Const} (hkind : s.kind = .const c) :
    Lowers ctx values s { value := some (.ofConst c) }
  | gridIndex {loop : StmtId} (hkind : s.kind = .loopIndex loop)
    (hgrid : ctx.gridLoop = some loop) :
    Lowers ctx values s (.standIn (.ident .gridIndex) (.ofPrim .i32))
  | counter {loop : StmtId} (hkind : s.kind = .loopIndex loop) (hgrid : ctx.gridLoop ≠ some loop)
    (hin : loop ∈ ctx.module.enclosing s.block) :
    Lowers ctx values s (.standIn (.ident (.counter loop)) (.ofPrim .i32))
  | argLoad {ty : Prim} {arg : Nat} {type : ShaderType} (hkind : s.kind = .argLoad ty arg)
    (hfits : (arg + 1) * 4 ≤ ctx.signature.argBytes)
    (htype : shaderType s.id (.ofPrim ty) = .ok type) :
    Lowers ctx values s (.bound s.id (.ofPrim ty) type
      (fromWord (.word .args (.lit (.abstract arg))) ty) .done [ctx.useArgs])
  | rand {ty : Prim} {type : ShaderType} {e : Expr} (hkind : s.kind = .rand ty)
    (he : e = .func .randF32 [] ∨ e = .convert ⟨.i32, 1⟩ (.func .randU32 []))
    (htype : shaderType s.id (.ofPrim ty) = .ok type) :
    Lowers ctx values s { Lowering.bound s.id (.ofPrim ty) type e .done [ctx.useGlobalTmps] with
      inputs := randInputs ctx.stage, random := true }
  | unary {op : UnaryOp} {x : StmtId} {v : Value} {t : ValueType} {type : ShaderType} {e : Expr}
    (hkind : s.kind = .unary op x) (hv : ctx.value values s.id x = .ok v)
    (hprim : checkPrim s.id v.type.prim = .ok ())
    (he : unaryExpr s.id op v = .ok (t, e)) (htype : shaderType s.id t = .ok type) :
    Lowers ctx values s (.bound s.id t type e)
  | binary {op : BinaryOp} {x y : StmtId} {a b : Value} {n : Nat} {t : ValueType}
    {type : ShaderType} {e : Expr} {before : Code}
    (hkind : s.kind = .binary op x y) (ha : ctx.value values s.id x = .ok a)
    (hb : ctx.value values s.id y = .ok b)
    (hprims : checkPrim s.id a.type.prim = .ok () ∧ checkPrim s.id b.type.prim = .ok ())
    (hn : joinComponents s.id op a.type b.type = .ok n)
    (he : binaryExpr s.id op a b n = .ok (t, e, before))
    (htype : shaderType s.id t = .ok type) :
    Lowers ctx values s (.bound s.id t type e before)
  | exitLoop (hkind : s.kind = .exitLoop) : Lowers ctx values s (.emit .exitLoop)
  | nextIteration (hkind : s.kind = .nextIteration) : Lowers ctx values s (.emit .nextIteration)
  | alloca {ty : Prim} {type : ShaderType} (hkind : s.kind = .alloca ty)
    (htype : shaderType s.id (.ofPrim ty) = .ok type) :
    Lowers ctx values s
      { code := .line (.declare (.temp s.id) type none) .done
        value := some ⟨.ident (.temp s.id), .ofPrim ty⟩ }
  | localLoad {ptr : StmtId} {var : Value} {type : ShaderType} (hkind : s.kind = .localLoad ptr)
    (hvar : ctx.value values s.id ptr = .ok var) (htype : shaderType s.id var.type = .ok type) :
    Lowers ctx values s (.bound s.id var.type type var.expr)
  | localStore {ptr x : StmtId} {var v : Value} (hkind : s.kind = .localStore ptr x)
    (hvar : ctx.value values s.id ptr = .ok var) (hv : ctx.value values s.id x = .ok v)
    (heq : v.type = var.type) : Lowers ctx values s (.emit (.assign var.expr v.expr))
  | globalPtr {f : Field} {indices : List StmtId} {offset base : Nat} {strides : List Nat}
    {terms : List Expr} {type : ShaderType} (hkind : s.kind = .globalPtr f indices offset)
    (hstrides : fieldStrides s.id f = .ok strides)
    (hterms : indexTerms ctx values s.id indices strides = .ok terms)
    (hbase : fitIndex (f.offsetWords + offset) = some base)
    (htype : shaderType s.id (.ofPrim .i32) = .ok type) :
    Lowers ctx values s (.bound s.id (.ofPrim .i32) type (sumTerms terms base))
  | globalLoad {ptr : StmtId} {f : Field} {index : Value} {type : ShaderType}
    (hkind : s.kind = .globalLoad ptr) (hfield : fieldOf ctx s.id ptr = .ok f)
    (hindex : ctx.value values s.id ptr = .ok index)
    (htype : shaderType s.id (.ofPrim f.dtype) = .ok type) :
    Lowers ctx values s (.bound s.id (.ofPrim f.dtype) type
      (fromWord (.word (.root f.buffer) index.expr) f.dtype) .done [ctx.useRoot f.buffer])
  | globalStore {ptr x : StmtId} {f : Field} {v index : Value} (hkind : s.kind = .globalStore ptr x)
    (hfield : fieldOf ctx s.id ptr = .ok f) (hwritable : checkFieldWritable ctx s.id f = .ok ())
    (hv : ctx.value values s.id x = .ok v) (heq : v.type = .ofPrim f.dtype)
    (hindex : ctx.value values s.id ptr = .ok index) :
    Lowers ctx values s (.emit
      (.assign (.word (.root f.buffer) index.expr) (toWord v.expr f.dtype)) [ctx.useRoot f.buffer])
  | temporary {ty : Prim} {offset word : Nat} (hkind : s.kind = .temporary ty offset)
    (hprim : checkPrim s.id ty = .ok ()) (hword : temporaryWord ctx.config s.id offset = .ok word) :
    Lowers ctx values s (.standIn (.lit (.abstract word)) (.ofPrim ty))
  | temporaryLoad {ptr : StmtId} {slot : Value} {type : ShaderType}
    (hkind : s.kind = .temporaryLoad ptr) (hslot : temporarySlot ctx values s.id ptr = .ok slot)
    (htype : shaderType s.id slot.type = .ok type) :
    Lowers ctx values s (.bound s.id slot.type type
      (fromWord (.word .globalTmps slot.expr) slot.type.prim) .done [ctx.useGlobalTmps])
  | temporaryStore {ptr x : StmtId} {slot v : Value} (hkind : s.kind = .temporaryStore ptr x)
    (hwritable : ctx.checkWritable s.id .globalTmps = .ok ())
    (hslot : temporarySlot ctx values s.id ptr = .ok slot)
    (hv : ctx.value values s.id x = .ok v) (heq : v.type = slot.type) :
    Lowers ctx values s (.emit
      (.assign (.word .globalTmps slot.expr) (toWord v.expr slot.type.prim)) [ctx.useGlobalTmps])
  | atomicInt {op : AtomicOp} {dest x : StmtId} {target : AtomicTarget} {v : Value}
    {type : ShaderType} (hkind : s.kind = .atomic op dest x)
    (htarget : atomicTarget ctx values s.id dest true = .ok target)
    (hv : ctx.value values s.id x = .ok v) (heq : v.type = .ofPrim target.prim)
    (hprim : target.prim = .i32) (htype : shaderType s.id (.ofPrim target.prim) = .ok type) :
    Lowers ctx values s (.bound s.id (.ofPrim target.prim) type
      (.func (atomicFunc op) [.address target.word, v.expr]) .done [target.use])
  | atomicFloat {op : AtomicOp} {dest x : StmtId} {target : AtomicTarget} {v : Value}
    {type : ShaderType} (hkind : s.kind = .atomic op dest x)
    (htarget : atomicTarget ctx values s.id dest true = .ok target)
    (hv : ctx.value values s.id x = .ok v) (heq : v.type = .ofPrim target.prim)
    (hprim : target.prim ≠ .i32) (htype : shaderType s.id (.ofPrim target.prim) = .ok type) :
    Lowers ctx values s (.bound s.id (.ofPrim target.prim) type
      (.bitcast ⟨.f32, 1⟩ (.ident (.seen s.id))) (exchangeLoop s.id op target.word v.expr)
      [target.use])
  | atomicLoad {ptr : StmtId} {target : AtomicTarget} {type : ShaderType}
    (hkind : s.kind = .atomicLoad ptr)
    (htarget : atomicTarget ctx values s.id ptr false = .ok target)
    (htype : shaderType s.id (.ofPrim target.prim) = .ok type) :
    Lowers ctx values s (.bound s.id (.ofPrim target.prim) type
      (fromWord (.func .atomicLoad [.address target.word]) target.prim) .done [target.use])
  | atomicStore {ptr x : StmtId} {target : AtomicTarget} {v : Value}
    (hkind : s.kind = .atomicStore ptr x)
    (htarget : atomicTarget ctx values s.id ptr true = .ok target)
    (hv : ctx.value values s.id x = .ok v) (heq : v.type = .ofPrim target.prim) :
    Lowers ctx values s (.emit
      (.perform (.func .atomicStore [.address target.word, toWord v.expr target.prim]))
      [target.use])
  | vertexInput {ty : Prim} {location : Nat} {type : ShaderType}
    (hkind : s.kind = .vertexInput ty location) (hstage : ctx.stage = .vertex)
    (htype : shaderType s.id (.ofPrim ty) = .ok type) :
    Lowers ctx values s
      { Lowering.bound s.id (.ofPrim ty) type (.input (.vertexAttribute location)) with
        inputs := [.located (.vertexAttribute location) type location ty] }
  | vertexOutput {x : StmtId} {location : Nat} {v : Value} {type : ShaderType}
    (hkind : s.kind = .vertexOutput x location) (hstage : ctx.stage = .vertex)
    (hv : ctx.value values s.id x = .ok v) (htype : shaderType s.id v.type = .ok type) :
    Lowers ctx values s { Lowering.emit (.assign (.output (.varying location)) v.expr) with
      outputs := [.located (.varying location) type location v.type.prim] }
  | fragmentInput {ty : Prim} {location : Nat} {type : ShaderType}
    (hkind : s.kind = .fragmentInput ty location) (hstage : ctx.stage = .fragment)
    (htype : shaderType s.id (.ofPrim ty) = .ok type)
    (hvarying : checkVarying ctx s.id type location = .ok ()) :
    Lowers ctx values s { Lowering.bound s.id (.ofPrim ty) type (.input (.varying location)) with
      inputs := [.located (.varying location) type location ty] }
  | vertexIndex {type : ShaderType} (hkind : s.kind = .builtinInput .vertexIndex)
    (hstage : ctx.stage = .vertex) (htype : shaderType s.id (.ofPrim .i32) = .ok type) :
    Lowers ctx values s
      { Lowering.bound s.id (.ofPrim .i32) type (.convert ⟨.i32, 1⟩ (.input .vertexIndex)) with
        inputs := [.vertexIndex] }
  | instanceIndex {type : ShaderType} (hkind : s.kind = .builtinInput .instanceIndex)
    (hstage : ctx.stage = .vertex) (htype : shaderType s.id (.ofPrim .i32) = .ok type) :
    Lowers ctx values s
      { Lowering.bound s.id (.ofPrim .i32) type (.convert ⟨.i32, 1⟩ (.input .instanceIndex)) with
        inputs := [.instanceIndex] }
  | fragCoord {type : ShaderType} (hkind : s.kind = .builtinInput .fragCoord)
    (hstage : ctx.stage = .fragment) (htype : shaderType s.id ⟨.f32, 4⟩ = .ok type) :
    Lowers ctx values s { Lowering.bound s.id ⟨.f32, 4⟩ type (.input .fragCoord) with
      inputs := [.fragCoord] }
  | position {q : Quad} {e : Expr} (hkind : s.kind = .builtinOutput (.position q))
    (hstage : ctx.stage = .vertex) (he : floatVector ctx values s.id q = .ok e) :
    Lowers ctx values s (.emit (.assign (.output .position) e))
  | color {location : Nat} {q : Quad} {e : Expr}
    (hkind : s.kind = .builtinOutput (.color location q)) (hstage : ctx.stage = .fragment)
    (he : floatVector ctx values s.id q = .ok e) :
    Lowers ctx values s { Lowering.emit (.assign (.output (.color location)) e) with
      outputs := [.located (.color location) ⟨.f32, 4⟩ location .f32] }
  | fragDepth {x : StmtId} {e : Expr} (hkind : s.kind = .builtinOutput (.fragDepth x))
    (hstage : ctx.stage = .fragment) (he : floatOperand ctx values s.id x = .ok e) :
    Lowers ctx values s { Lowering.emit (.assign (.output .fragDepth) e) with
      outputs := [.fragDepth] }
  | derivative {axis : Axis} {x : StmtId} {v : Value} {f : Func} {type : ShaderType}
    (hkind : s.kind = .derivative axis x) (hstage : ctx.stage = .fragment)
    (hv : ctx.value values s.id x = .ok v) (hprim : checkPrim s.id v.type.prim = .ok ())
    (hf : f = .dpdx ∨ f = .dpdy)
    (htype : shaderType s.id ⟨.f32, v.type.components⟩ = .ok type) :
    Lowers ctx values s (.bound s.id ⟨.f32, v.type.components⟩ type
      (.func f [v.coerce .f32 v.type.components]))
  | discard (hkind : s.kind = .discard) (hstage : ctx.stage = .fragment) :
    Lowers ctx values s (.emit .discard)
  | sample {t : Texture} {coords : List StmtId} {cs : List Value} {l : Lowering}
    (hkind : s.kind = .texture .sample t coords)
    (hcoords : coords.mapM (ctx.scalar values s.id) = .ok cs)
    (hl : sampleTexture ctx s.id t cs none = .ok l) : Lowers ctx values s l
  | sampleLod {x : StmtId} {t : Texture} {coords : List StmtId} {cs : List Value} {v : Value}
    {l : Lowering} (hkind : s.kind = .texture (.sampleLod x) t coords)
    (hcoords : coords.mapM (ctx.scalar values s.id) = .ok cs)
    (hv : ctx.scalar values s.id x = .ok v)
    (hl : sampleTexture ctx s.id t cs (some v) = .ok l) : Lowers ctx values s l
  | textureLoad {t : Texture} {coords : List StmtId} {cs : List Value} {use : Use}
    {type : ShaderType} (hkind : s.kind = .texture .load t coords)
    (hcoords : coords.mapM (ctx.scalar values s.id) = .ok cs) (hdim : t.dim ≠ .cube)
    (huse : useTexture s.id t = .ok use) (htype : shaderType s.id (texelType t) = .ok type) :
    Lowers ctx values s (.bound s.id (texelType t) type
      (.func .textureLoad
        [.ident (.resource (.texture t.id)), vectorOf cs .i32, .int 0]) .done [use])
  | textureStore {q : Quad} {t : Texture} {coords : List StmtId} {cs : List Value} {e : Expr}
    {use : Use} (hkind : s.kind = .texture (.store q) t coords)
    (hcoords : coords.mapM (ctx.scalar values s.id) = .ok cs)
    (hwritable : ctx.checkWritable s.id (.storageTexture t.id) = .ok ())
    (he : floatVector ctx values s.id q = .ok e) (huse : useStorageTexture s.id t = .ok use) :
    Lowers ctx values s (.emit
      (.perform (.func .textureStore
        [.ident (.resource (.storageTexture t.id)), vectorOf cs .i32, e])) [use])
  | extract {x : StmtId} {index : Nat} {v : Value} {selector : Selector} {type : ShaderType}
    (hkind : s.kind = .extract x index) (hv : ctx.value values s.id x = .ok v)
    (hin : ¬ (v.type.components ≤ index ∨ v.type.isScalar))
    (hselector : Selector.component? index = some selector)
    (htype : shaderType s.id (.ofPrim v.type.prim) = .ok type) :
    Lowers ctx values s (.bound s.id (.ofPrim v.type.prim) type (.select v.expr selector))
  | ret {operands : List StmtId} {words : List Expr} (hkind : s.kind = .ret operands)
    (hstage : ctx.stage = .compute) (hfits : operands.length * 4 ≤ ctx.signature.retBytes)
    (hwords : operandWords ctx values s.id operands = .ok words) :
    Lowers ctx values s { code := .ofLines (returnLines 0 words), uses := [ctx.useRets] }

/-! ## Checks that were passed -/

theorem requireStage_eq_ok {stage : Stage} :
    ctx.requireStage s stage = .ok () ↔ ctx.stage = stage := by
  unfold Context.requireStage
  split <;> simp_all

theorem requireType_eq_ok {id : StmtId} {v : Value} {t : ValueType} :
    requireType id v t = .ok () ↔ v.type = t := by
  unfold requireType
  split <;> simp_all

theorem temporarySlot_eq_ok {user ptr : StmtId} {slot : Value}
    (h : temporarySlot ctx values user ptr = .ok slot) : ctx.value values user ptr = .ok slot := by
  obtain ⟨kind, -, h⟩ := bind_eq_ok.1 h
  split at h
  · exact h
  · simp at h

/-- A temporary is a whole word of the buffer. -/
theorem temporaryWord_eq_ok {config : Config} {id : StmtId} {offset k : Nat}
    (h : temporaryWord config id offset = .ok k) :
    offset = 4 * k ∧ offset + 4 ≤ config.globalTmpsBytes := by
  unfold temporaryWord at h
  split at h
  · simp at h
  · split at h
    · simp at h
    · cases h
      omega

/-- Buffers are written by compute shaders. -/
theorem checkWritable_eq_ok {id : StmtId} {r : Resource} :
    ctx.checkWritable id r = .ok () ↔ ctx.stage = .compute := by
  unfold Context.checkWritable
  cases ctx.stage <;> simp [Stage.isGraphics]

theorem checkFieldWritable_eq_ok {id : StmtId} {f : Field} :
    checkFieldWritable ctx id f = .ok () ↔ ctx.stage = .compute ∧ f.writable = true := by
  rw [checkFieldWritable, bind_eq_ok]
  constructor
  · rintro ⟨⟨⟩, hstage, h⟩
    refine ⟨checkWritable_eq_ok.1 hstage, ?_⟩
    split at h
    · assumption
    · simp at h
  · rintro ⟨hstage, hwritable⟩
    exact ⟨(), checkWritable_eq_ok.2 hstage, if_pos hwritable⟩

/-- What an atomic statement works on: a word of a field, writable if written, or a temporary. -/
theorem atomicTarget_cases {user ptr : StmtId} {write : Bool} {target : AtomicTarget}
    (h : atomicTarget ctx values user ptr write = .ok target) :
    ctx.stage = .compute ∧ ∃ v, ctx.value values user ptr = .ok v ∧
      ((∃ f indices offset, ctx.module.kind? ptr = some (.globalPtr f indices offset) ∧
          (write = true → f.writable = true) ∧
          target = ⟨.word (.rootAtomic f.buffer) v.expr, f.dtype, Context.useRootAtomic f.buffer⟩) ∨
        ∃ ty offset, ctx.module.kind? ptr = some (.temporary ty offset) ∧
          target = ⟨.word .globalTmpsAtomic v.expr, ty, ctx.useGlobalTmpsAtomic⟩) := by
  obtain ⟨kind, hkind, h⟩ := bind_eq_ok.1 h
  rw [kindOf_eq_ok] at hkind
  split at h
  · rename_i f indices offset
    split at h
    · obtain ⟨⟨⟩, hcheck, h⟩ := bind_eq_ok.1 h
      obtain ⟨v, hv, h⟩ := bind_eq_ok.1 h
      cases h
      obtain ⟨hstage, hwritable⟩ := checkFieldWritable_eq_ok.1 hcheck
      exact ⟨hstage, v, hv, .inl ⟨f, indices, offset, hkind, fun _ => hwritable, rfl⟩⟩
    · rename_i hwrite
      obtain ⟨⟨⟩, hcheck, h⟩ := bind_eq_ok.1 h
      obtain ⟨v, hv, h⟩ := bind_eq_ok.1 h
      cases h
      exact ⟨checkWritable_eq_ok.1 hcheck, v, hv,
        .inl ⟨f, indices, offset, hkind, fun hw => absurd hw hwrite, rfl⟩⟩
  · rename_i ty offset
    obtain ⟨⟨⟩, hcheck, h⟩ := bind_eq_ok.1 h
    obtain ⟨v, hv, h⟩ := bind_eq_ok.1 h
    cases h
    exact ⟨checkWritable_eq_ok.1 hcheck, v, hv, .inr ⟨ty, offset, hkind, rfl⟩⟩
  · simp at h

/-! ## There are no other ways -/

theorem lowers_of_lowerTexture {access : TextureAccess} {t : Texture} {coords : List StmtId}
    (hkind : s.kind = .texture access t coords)
    (h : lowerTexture ctx values s.id access t coords = .ok l) : Lowers ctx values s l := by
  obtain ⟨cs, hcoords, h⟩ := bind_eq_ok.1 h
  cases access with
  | sample => exact .sample hkind hcoords h
  | sampleLod x =>
    obtain ⟨v, hv, h⟩ := bind_eq_ok.1 h
    exact .sampleLod hkind hcoords hv h
  | load =>
    dsimp only at h
    split at h
    · simp at h
    · rename_i hdim
      obtain ⟨use, huse, h⟩ := bind_eq_ok.1 h
      obtain ⟨type, htype, rfl⟩ := define_eq_ok.1 h
      exact .textureLoad hkind hcoords hdim huse htype
  | store q =>
    obtain ⟨⟨⟩, hwritable, h⟩ := bind_eq_ok.1 h
    obtain ⟨e, he, h⟩ := bind_eq_ok.1 h
    obtain ⟨use, huse, h⟩ := bind_eq_ok.1 h
    cases h
    exact .textureStore hkind hcoords hwritable he huse

theorem lowers_of_lowerBuiltinInput {input : BuiltinInput} (hkind : s.kind = .builtinInput input)
    (h : lowerBuiltinInput ctx s input = .ok l) : Lowers ctx values s l := by
  cases input with
  | vertexIndex =>
    obtain ⟨⟨⟩, hstage, h⟩ := bind_eq_ok.1 h
    obtain ⟨l, hl, h⟩ := bind_eq_ok.1 h
    obtain ⟨type, htype, rfl⟩ := define_eq_ok.1 hl
    cases h
    exact .vertexIndex hkind (requireStage_eq_ok.1 hstage) htype
  | instanceIndex =>
    obtain ⟨⟨⟩, hstage, h⟩ := bind_eq_ok.1 h
    obtain ⟨l, hl, h⟩ := bind_eq_ok.1 h
    obtain ⟨type, htype, rfl⟩ := define_eq_ok.1 hl
    cases h
    exact .instanceIndex hkind (requireStage_eq_ok.1 hstage) htype
  | fragCoord =>
    obtain ⟨⟨⟩, hstage, h⟩ := bind_eq_ok.1 h
    obtain ⟨l, hl, h⟩ := bind_eq_ok.1 h
    obtain ⟨type, htype, rfl⟩ := define_eq_ok.1 hl
    cases h
    exact .fragCoord hkind (requireStage_eq_ok.1 hstage) htype

theorem lowers_of_lowerBuiltinOutput {output : BuiltinOutput}
    (hkind : s.kind = .builtinOutput output)
    (h : lowerBuiltinOutput ctx values s output = .ok l) : Lowers ctx values s l := by
  cases output with
  | position q =>
    obtain ⟨e, he, h⟩ := bind_eq_ok.1 h
    obtain ⟨⟨⟩, hstage, h⟩ := bind_eq_ok.1 h
    cases h
    exact .position hkind (requireStage_eq_ok.1 hstage) he
  | fragDepth x =>
    obtain ⟨e, he, h⟩ := bind_eq_ok.1 h
    obtain ⟨⟨⟩, hstage, h⟩ := bind_eq_ok.1 h
    cases h
    exact .fragDepth hkind (requireStage_eq_ok.1 hstage) he
  | color location q =>
    obtain ⟨e, he, h⟩ := bind_eq_ok.1 h
    obtain ⟨⟨⟩, hstage, h⟩ := bind_eq_ok.1 h
    cases h
    exact .color hkind (requireStage_eq_ok.1 hstage) he

theorem lowers_of_lowerAtomic {op : AtomicOp} {dest x : StmtId} (hkind : s.kind = .atomic op dest x)
    (h : lowerAtomic ctx values s.id op dest x = .ok l) : Lowers ctx values s l := by
  obtain ⟨target, htarget, h⟩ := bind_eq_ok.1 h
  obtain ⟨v, hv, h⟩ := bind_eq_ok.1 h
  obtain ⟨⟨⟩, heq, h⟩ := bind_eq_ok.1 h
  rw [requireType_eq_ok] at heq
  split at h
  · rename_i hprim
    obtain ⟨type, htype, rfl⟩ := define_eq_ok.1 h
    exact .atomicInt hkind htarget hv heq hprim htype
  · rename_i hprim
    obtain ⟨type, htype, rfl⟩ := define_eq_ok.1 h
    exact .atomicFloat hkind htarget hv heq hprim htype

theorem lowers_of_lowerBinary {op : BinaryOp} {x y : StmtId} (hkind : s.kind = .binary op x y)
    (h : lowerBinary ctx values s.id op x y = .ok l) : Lowers ctx values s l := by
  obtain ⟨a, ha, h⟩ := bind_eq_ok.1 h
  obtain ⟨b, hb, h⟩ := bind_eq_ok.1 h
  obtain ⟨⟨⟩, hpa, h⟩ := bind_eq_ok.1 h
  obtain ⟨⟨⟩, hpb, h⟩ := bind_eq_ok.1 h
  obtain ⟨n, hn, h⟩ := bind_eq_ok.1 h
  have hexpr : ∃ t e before, binaryExpr s.id op a b n = .ok (t, e, before) ∧
      Lowering.define s.id t e before = .ok l := by
    dsimp only at h
    split at h
    · obtain ⟨⟨⟩, -, h⟩ := bind_eq_ok.1 h
      obtain ⟨⟨⟩, -, h⟩ := bind_eq_ok.1 h
      obtain ⟨⟨t, e, before⟩, he, h⟩ := bind_eq_ok.1 h
      exact ⟨t, e, before, he, h⟩
    · obtain ⟨⟨t, e, before⟩, he, h⟩ := bind_eq_ok.1 h
      exact ⟨t, e, before, he, h⟩
  obtain ⟨t, e, before, he, h⟩ := hexpr
  obtain ⟨type, htype, rfl⟩ := define_eq_ok.1 h
  exact .binary hkind ha hb ⟨hpa, hpb⟩ hn he htype

theorem lowers_of_lowerLoopIndex {loop : StmtId} (hkind : s.kind = .loopIndex loop)
    (h : lowerLoopIndex ctx s loop = .ok l) : Lowers ctx values s l := by
  unfold lowerLoopIndex at h
  split at h
  · rename_i hgrid
    cases h
    exact .gridIndex hkind hgrid
  · rename_i hgrid
    split at h
    · rename_i hin
      cases h
      exact .counter hkind hgrid hin
    · simp at h

theorem lowers_of_lowerExtract {x : StmtId} {index : Nat} (hkind : s.kind = .extract x index)
    (h : lowerExtract ctx values s.id x index = .ok l) : Lowers ctx values s l := by
  obtain ⟨v, hv, h⟩ := bind_eq_ok.1 h
  split at h
  · simp at h
  · rename_i hin
    split at h
    · rename_i selector hselector
      obtain ⟨type, htype, rfl⟩ := define_eq_ok.1 h
      exact .extract hkind hv hin hselector htype
    · cases h

theorem lowers_of_lowerRand {ty : Prim} (hkind : s.kind = .rand ty)
    (h : lowerRand ctx s.id ty = .ok l) : Lowers ctx values s l := by
  obtain ⟨⟨⟩, -, h⟩ := bind_eq_ok.1 h
  obtain ⟨l, hl, h⟩ := bind_eq_ok.1 h
  obtain ⟨type, htype, rfl⟩ := define_eq_ok.1 hl
  cases h
  refine .rand hkind ?_ htype
  cases ty <;> simp

theorem lowers_of_lowerGlobalPtr {f : Field} {indices : List StmtId} {offset : Nat}
    (hkind : s.kind = .globalPtr f indices offset)
    (h : lowerGlobalPtr ctx values s.id f indices offset = .ok l) : Lowers ctx values s l := by
  obtain ⟨⟨⟩, -, h⟩ := bind_eq_ok.1 h
  obtain ⟨strides, hstrides, h⟩ := bind_eq_ok.1 h
  obtain ⟨terms, hterms, h⟩ := bind_eq_ok.1 h
  split at h
  · rename_i base hbase
    obtain ⟨type, htype, rfl⟩ := define_eq_ok.1 h
    exact .globalPtr hkind hstrides hterms hbase htype
  · simp at h

/-- **Every lowering follows one of the rules.** -/
theorem lowers_of_lower (hblocks : s.kind.childBlocks = []) (h : lower ctx values s = .ok l) :
    Lowers ctx values s l := by
  rw [lower] at h
  cases hkind : s.kind with
  | branch | whileTrue | rangeFor | vertexFor | fragmentFor =>
    simp [hkind, Kind.childBlocks] at hblocks
  | const c =>
    simp only [hkind] at h
    cases h
    exact .const hkind
  | loopIndex loop => exact lowers_of_lowerLoopIndex hkind (by simpa only [hkind] using h)
  | argLoad ty arg =>
    simp only [hkind] at h
    obtain ⟨⟨⟩, -, h⟩ := bind_eq_ok.1 h
    split at h
    · simp at h
    · rename_i hfits
      obtain ⟨type, htype, rfl⟩ := define_eq_ok.1 h
      exact .argLoad hkind (Nat.not_lt.1 hfits) htype
  | rand ty => exact lowers_of_lowerRand hkind (by simpa only [hkind] using h)
  | unary op x =>
    simp only [hkind] at h
    obtain ⟨v, hv, h⟩ := bind_eq_ok.1 h
    obtain ⟨⟨⟩, hprim, h⟩ := bind_eq_ok.1 h
    obtain ⟨⟨t, e⟩, he, h⟩ := bind_eq_ok.1 h
    obtain ⟨type, htype, rfl⟩ := define_eq_ok.1 h
    exact .unary hkind hv hprim he htype
  | binary op x y => exact lowers_of_lowerBinary hkind (by simpa only [hkind] using h)
  | exitLoop =>
    simp only [hkind] at h
    cases h
    exact .exitLoop hkind
  | nextIteration =>
    simp only [hkind] at h
    cases h
    exact .nextIteration hkind
  | alloca ty =>
    simp only [hkind] at h
    obtain ⟨type, htype, h⟩ := bind_eq_ok.1 h
    cases h
    exact .alloca hkind htype
  | localLoad ptr =>
    simp only [hkind] at h
    obtain ⟨var, hvar, h⟩ := bind_eq_ok.1 h
    obtain ⟨type, htype, rfl⟩ := define_eq_ok.1 h
    exact .localLoad hkind hvar htype
  | localStore ptr x =>
    simp only [hkind] at h
    obtain ⟨var, hvar, h⟩ := bind_eq_ok.1 h
    obtain ⟨v, hv, h⟩ := bind_eq_ok.1 h
    obtain ⟨⟨⟩, heq, h⟩ := bind_eq_ok.1 h
    cases h
    exact .localStore hkind hvar hv (requireType_eq_ok.1 heq)
  | globalPtr f indices offset =>
    exact lowers_of_lowerGlobalPtr hkind (by simpa only [hkind] using h)
  | globalLoad ptr =>
    simp only [hkind] at h
    obtain ⟨f, hfield, h⟩ := bind_eq_ok.1 h
    obtain ⟨index, hindex, h⟩ := bind_eq_ok.1 h
    obtain ⟨type, htype, rfl⟩ := define_eq_ok.1 h
    exact .globalLoad hkind hfield hindex htype
  | globalStore ptr x =>
    simp only [hkind] at h
    obtain ⟨f, hfield, h⟩ := bind_eq_ok.1 h
    obtain ⟨⟨⟩, hwritable, h⟩ := bind_eq_ok.1 h
    obtain ⟨v, hv, h⟩ := bind_eq_ok.1 h
    obtain ⟨⟨⟩, heq, h⟩ := bind_eq_ok.1 h
    obtain ⟨index, hindex, h⟩ := bind_eq_ok.1 h
    cases h
    exact .globalStore hkind hfield hwritable hv (requireType_eq_ok.1 heq) hindex
  | temporary ty offset =>
    simp only [hkind] at h
    obtain ⟨⟨⟩, hprim, h⟩ := bind_eq_ok.1 h
    obtain ⟨word, hword, h⟩ := bind_eq_ok.1 h
    cases h
    exact .temporary hkind hprim hword
  | temporaryLoad ptr =>
    simp only [hkind] at h
    obtain ⟨slot, hslot, h⟩ := bind_eq_ok.1 h
    obtain ⟨type, htype, rfl⟩ := define_eq_ok.1 h
    exact .temporaryLoad hkind hslot htype
  | temporaryStore ptr x =>
    simp only [hkind] at h
    obtain ⟨⟨⟩, hwritable, h⟩ := bind_eq_ok.1 h
    obtain ⟨slot, hslot, h⟩ := bind_eq_ok.1 h
    obtain ⟨v, hv, h⟩ := bind_eq_ok.1 h
    obtain ⟨⟨⟩, heq, h⟩ := bind_eq_ok.1 h
    cases h
    exact .temporaryStore hkind hwritable hslot hv (requireType_eq_ok.1 heq)
  | atomic op dest x => exact lowers_of_lowerAtomic hkind (by simpa only [hkind] using h)
  | atomicLoad ptr =>
    simp only [hkind] at h
    obtain ⟨target, htarget, h⟩ := bind_eq_ok.1 h
    obtain ⟨type, htype, rfl⟩ := define_eq_ok.1 h
    exact .atomicLoad hkind htarget htype
  | atomicStore ptr x =>
    simp only [hkind] at h
    obtain ⟨target, htarget, h⟩ := bind_eq_ok.1 h
    obtain ⟨v, hv, h⟩ := bind_eq_ok.1 h
    obtain ⟨⟨⟩, heq, h⟩ := bind_eq_ok.1 h
    cases h
    exact .atomicStore hkind htarget hv (requireType_eq_ok.1 heq)
  | vertexInput ty location =>
    simp only [hkind] at h
    obtain ⟨⟨⟩, hstage, h⟩ := bind_eq_ok.1 h
    obtain ⟨type, htype, h⟩ := bind_eq_ok.1 h
    obtain ⟨l, hl, h⟩ := bind_eq_ok.1 h
    obtain ⟨type', htype', rfl⟩ := define_eq_ok.1 hl
    rw [htype] at htype'
    cases htype'
    cases h
    exact .vertexInput hkind (requireStage_eq_ok.1 hstage) htype
  | vertexOutput x location =>
    simp only [hkind] at h
    obtain ⟨⟨⟩, hstage, h⟩ := bind_eq_ok.1 h
    obtain ⟨v, hv, h⟩ := bind_eq_ok.1 h
    obtain ⟨type, htype, h⟩ := bind_eq_ok.1 h
    cases h
    exact .vertexOutput hkind (requireStage_eq_ok.1 hstage) hv htype
  | fragmentInput ty location =>
    simp only [hkind] at h
    obtain ⟨⟨⟩, hstage, h⟩ := bind_eq_ok.1 h
    obtain ⟨type, htype, h⟩ := bind_eq_ok.1 h
    obtain ⟨⟨⟩, hvarying, h⟩ := bind_eq_ok.1 h
    obtain ⟨l, hl, h⟩ := bind_eq_ok.1 h
    obtain ⟨type', htype', rfl⟩ := define_eq_ok.1 hl
    rw [htype] at htype'
    cases htype'
    cases h
    exact .fragmentInput hkind (requireStage_eq_ok.1 hstage) htype hvarying
  | builtinInput input => exact lowers_of_lowerBuiltinInput hkind (by simpa only [hkind] using h)
  | builtinOutput output =>
    exact lowers_of_lowerBuiltinOutput hkind (by simpa only [hkind] using h)
  | derivative axis x =>
    simp only [hkind] at h
    obtain ⟨⟨⟩, hstage, h⟩ := bind_eq_ok.1 h
    obtain ⟨v, hv, h⟩ := bind_eq_ok.1 h
    obtain ⟨⟨⟩, hprim, h⟩ := bind_eq_ok.1 h
    obtain ⟨type, htype, rfl⟩ := define_eq_ok.1 h
    refine .derivative hkind (requireStage_eq_ok.1 hstage) hv hprim ?_ htype
    cases axis <;> simp
  | discard =>
    simp only [hkind] at h
    obtain ⟨⟨⟩, hstage, h⟩ := bind_eq_ok.1 h
    cases h
    exact .discard hkind (requireStage_eq_ok.1 hstage)
  | texture access t coords => exact lowers_of_lowerTexture hkind (by simpa only [hkind] using h)
  | extract x index => exact lowers_of_lowerExtract hkind (by simpa only [hkind] using h)
  | ret operands =>
    simp only [hkind] at h
    obtain ⟨⟨⟩, hstage, h⟩ := bind_eq_ok.1 h
    split at h
    · simp at h
    · rename_i hfits
      obtain ⟨words, hwords, h⟩ := bind_eq_ok.1 h
      cases h
      exact .ret hkind (requireStage_eq_ok.1 hstage) (Nat.not_lt.1 hfits) hwords

/-- What can stand for a statement: its temporary, a counter or index, a constant, or a number. -/
inductive Named (ctx : Context) (s : Stmt) : Expr → Prop where
  | temp : Named ctx s (.ident (.temp s.id))
  | counter {loop : StmtId} (hkind : s.kind = .loopIndex loop) (hgrid : ctx.gridLoop ≠ some loop)
    (hin : loop ∈ ctx.module.enclosing s.block) : Named ctx s (.ident (.counter loop))
  | gridIndex {loop : StmtId} (hkind : s.kind = .loopIndex loop)
    (hgrid : ctx.gridLoop = some loop) : Named ctx s (.ident .gridIndex)
  | const (c : Const) : Named ctx s (Value.ofConst c).expr
  | word (k : Nat) : Named ctx s (.lit (.abstract k))

theorem sampleTexture_eq_ok {id : StmtId} {t : Texture} {cs : List Value} {level : Option Value}
    (h : sampleTexture ctx id t cs level = .ok l) : ∃ use e type,
      useTexture id t = .ok use ∧ shaderType id (texelType t) = .ok type ∧
      l = .bound id (texelType t) type e .done [use, ⟨.sampler t.id, .handle .sampler⟩] := by
  obtain ⟨use, huse, h⟩ := bind_eq_ok.1 h
  obtain ⟨type, htype, rfl⟩ := define_eq_ok.1 h
  exact ⟨use, _, type, huse, htype, rfl⟩

/-- What stands for a statement is one of a few things. -/
theorem Lowers.named (h : Lowers ctx values s l) {v : Value} (hv : l.value = some v) :
    Named ctx s v.expr := by
  cases h with
  | const =>
    cases hv
    exact .const _
  | gridIndex hkind hgrid =>
    cases hv
    exact .gridIndex hkind hgrid
  | counter hkind hgrid hin =>
    cases hv
    exact .counter hkind hgrid hin
  | temporary =>
    cases hv
    exact .word _
  | sample _ _ hl | sampleLod _ _ _ hl =>
    obtain ⟨use, e, type, -, -, rfl⟩ := sampleTexture_eq_ok hl
    cases hv
    exact .temp
  | exitLoop | nextIteration | localStore | globalStore | temporaryStore | atomicStore
  | vertexOutput | position | color | fragDepth | discard | textureStore | ret => cases hv
  | argLoad | rand | unary | binary | alloca | localLoad | globalPtr | globalLoad | temporaryLoad
  | atomicInt | atomicFloat | atomicLoad | vertexInput | fragmentInput | vertexIndex
  | instanceIndex | fragCoord | derivative | textureLoad | extract =>
    cases hv
    exact .temp

/-! ## Invariants of walks -/

section Invariants

variable {st st' : State} {o : Outline} {code : Code}

/-- **What every lowered statement preserves, a walk preserves.** -/
theorem Walks.keeps {P : State → Prop} (h : Walks ctx st o st' code)
    (hP : ∀ {st st' : State} {s : Stmt} {l : Lowering}, s ∈ o.stmts → P st →
      Lowers ctx st.values s l → st.apply s.id l = .ok st' → P st')
    (hst : P st) : P st' := by
  induction h with
  | nil => exact hst
  | branch _ _ _ _ _ ihFirst ihSecond ihRest =>
    have hst₁ := ihFirst (fun hs => hP (by simp [Outline.stmts, hs])) hst
    have hst₂ := ihSecond (fun hs => hP (by simp [Outline.stmts, hs])) hst₁
    exact ihRest (fun hs => hP (by simp [Outline.stmts, hs])) hst₂
  | loop _ _ _ ihFirst ihRest | count _ _ _ _ ihFirst ihRest =>
    have hst₁ := ihFirst (fun hs => hP (by simp [Outline.stmts, hs])) hst
    exact ihRest (fun hs => hP (by simp [Outline.stmts, hs])) hst₁
  | leaf hkind hlower happly _ ihRest =>
    have hst₁ := hP (by simp [Outline.stmts]) hst (lowers_of_lower hkind hlower) happly
    exact ihRest (fun hs => hP (by simp [Outline.stmts, hs])) hst₁

theorem append_stmts_cons (before : List Stmt) (s : Stmt) (first second rest : Outline) :
    before ++ (Outline.cons s first second rest).stmts =
      before ++ [s] ++ first.stmts ++ second.stmts ++ rest.stmts := by
  simp [Outline.stmts]

/-- The same from any point on. -/
theorem Walks.along_from {P : State → List Stmt → Prop} {before all : List Stmt}
    (h : Walks ctx st o st' code) (ho : o.Owned) (hall : before ++ o.stmts <+: all)
    (hnode : ∀ {st : State} {walked : List Stmt} {s : Stmt}, walked ++ [s] <+: all →
      s.kind.childBlocks ≠ [] → P st walked → P st (walked ++ [s]))
    (hleaf : ∀ {st st' : State} {walked : List Stmt} {s : Stmt} {l : Lowering},
      walked ++ [s] <+: all → s.kind.childBlocks = [] → lower ctx st.values s = .ok l →
      st.apply s.id l = .ok st' → P st walked → P st' (walked ++ [s]))
    (hst : P st before) : P st' (before ++ o.stmts) := by
  induction h generalizing before with
  | nil => simpa [Outline.stmts] using hst
  | branch hkind _ _ _ _ ihFirst ihSecond ihRest =>
    obtain ⟨-, -, hfirst, hsecond, hrest⟩ := ho
    rw [append_stmts_cons] at hall ⊢
    have h₂ := (prefix_append _ _).trans hall
    have h₁ := (prefix_append _ _).trans h₂
    have hst := hnode ((prefix_append _ _).trans h₁) (by simp [hkind, Kind.childBlocks]) hst
    exact ihRest hrest hall (ihSecond hsecond h₂ (ihFirst hfirst h₁ hst))
  | loop hkind _ _ ihFirst ihRest | count hkind _ _ _ ihFirst ihRest =>
    obtain ⟨-, hnil, hfirst, -, hrest⟩ := ho
    obtain rfl := hnil (by rw [hkind]; exact Nat.le_refl 1)
    rw [append_stmts_cons, Outline.stmts, append_nil] at hall ⊢
    have h₁ := (prefix_append _ _).trans hall
    have hst := hnode ((prefix_append _ _).trans h₁) (by simp [hkind, Kind.childBlocks]) hst
    exact ihRest hrest hall (ihFirst hfirst h₁ hst)
  | leaf hkind hlower happly _ ihRest =>
    obtain ⟨hfirst, hsecond, -, -, hrest⟩ := ho
    obtain rfl := hfirst (by rw [hkind]; rfl)
    obtain rfl := hsecond (by rw [hkind]; exact Nat.zero_le 1)
    rw [append_stmts_cons, Outline.stmts, append_nil, append_nil] at hall ⊢
    have hst := hleaf ((prefix_append _ _).trans hall) hkind hlower happly hst
    exact ihRest hrest hall hst

/-- **What is true of the statements walked so far**: `P` has to survive a statement with blocks,
which adds nothing, and one that is lowered. -/
theorem Walks.along {P : State → List Stmt → Prop} (h : Walks ctx st o st' code) (ho : o.Owned)
    (hnode : ∀ {st : State} {walked : List Stmt} {s : Stmt}, walked ++ [s] <+: o.stmts →
      s.kind.childBlocks ≠ [] → P st walked → P st (walked ++ [s]))
    (hleaf : ∀ {st st' : State} {walked : List Stmt} {s : Stmt} {l : Lowering},
      walked ++ [s] <+: o.stmts → s.kind.childBlocks = [] → lower ctx st.values s = .ok l →
      st.apply s.id l = .ok st' → P st walked → P st' (walked ++ [s]))
    (hst : P st []) : P st' o.stmts := by
  have hall : [] ++ o.stmts <+: o.stmts := prefix_refl _
  exact h.along_from ho hall hnode hleaf hst

end Invariants

/-! ## What a walk declares -/

section Globals

variable {st st' : State} {P : Resource → Declaration → Prop}

theorem use_globals {u : Use} (hst : ∀ g ∈ st.globals, P g.binding.resource g.declaration)
    (hu : P u.resource u.declaration) (h : st.use u = .ok st') :
    ∀ g ∈ st'.globals, P g.binding.resource g.declaration := by
  obtain ⟨-, rfl⟩ | ⟨-, bindings, slot, rfl⟩ := use_cases h
  · exact hst
  · exact forall_mem_append.2 ⟨hst, forall_mem_singleton.2 hu⟩

theorem uses_globals {uses : List Use}
    (hst : ∀ g ∈ st.globals, P g.binding.resource g.declaration)
    (hu : ∀ u ∈ uses, P u.resource u.declaration) (h : uses.foldlM State.use st = .ok st') :
    ∀ g ∈ st'.globals, P g.binding.resource g.declaration :=
  foldlM_keeps (P := fun st => ∀ g ∈ st.globals, P g.binding.resource g.declaration) h
    (fun u hmem _ _ hu' hst => use_globals hst (hu u hmem) hu') hst

/-- A statement declares what it uses. -/
theorem apply_globals {id : StmtId} (hst : ∀ g ∈ st.globals, P g.binding.resource g.declaration)
    (hl : ∀ u ∈ l.uses, P u.resource u.declaration) (h : st.apply id l = .ok st') :
    ∀ g ∈ st'.globals, P g.binding.resource g.declaration := by
  obtain ⟨_, _, _, _, huses, -, -, rfl⟩ := apply_eq_ok h
  have hglobals := uses_globals hst hl huses
  exact hglobals

/-- **A walk declares what its statements use**: what holds of all uses holds of declarations. -/
theorem Walks.globals {o : Outline} {code : Code} (h : Walks ctx st o st' code)
    (hP : ∀ values s l, Lowers ctx values s l → ∀ u ∈ l.uses, P u.resource u.declaration)
    (hst : ∀ g ∈ st.globals, P g.binding.resource g.declaration) :
    ∀ g ∈ st'.globals, P g.binding.resource g.declaration :=
  h.keeps (P := fun st => ∀ g ∈ st.globals, P g.binding.resource g.declaration)
    (fun _ hst hl happly => apply_globals hst (hP _ _ _ hl) happly) hst

end Globals

end WgslKernel.Codegen
