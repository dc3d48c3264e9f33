import WgslKernel.Codegen.Basic

/-!
# Memory

Local variables, fields, global temporaries and atomics.  Buffers hold 32-bit integer words; a
float is stored as its bits.
-/

namespace WgslKernel.Codegen

/-! ## Local variables -/

/-- A local variable. -/
def lowerAlloca (id : StmtId) (ty : Prim) : Except Halt Lowering := do
  let type ← shaderType id (.ofPrim ty)
  .ok
    { code := .line (.declare (.temp id) type none) .done
      value := some ⟨.ident (.temp id), .ofPrim ty⟩ }

/-- The value of a local variable. -/
def lowerLocalLoad (ctx : Context) (values : Values) (id ptr : StmtId) :
    Except Halt Lowering := do
  let var ← ctx.value values id ptr
  Lowering.define id var.type var.expr

/-- An assignment to a local variable. -/
def lowerLocalStore (ctx : Context) (values : Values) (id ptr value : StmtId) :
    Except Halt Lowering := do
  let var ← ctx.value values id ptr
  let v ← ctx.value values id value
  requireType id v var.type
  .ok (.emit (.assign var.expr v.expr))

/-! ## Fields -/

/-- The strides of a field that can be addressed. -/
def fieldStrides (id : StmtId) (f : Field) : Except Halt (List Nat) :=
  match f.isAddressable, f.strides.bind fun strides => strides.mapM fitIndex with
  | true, some strides => .ok strides
  | _, _ => refuse (.fieldOutOfRange id f.id)

/-- The element count of a field that can be addressed. -/
def fieldElements (id : StmtId) (f : Field) : Except Halt Nat :=
  match f.isAddressable, f.elementCount.bind fitIndex with
  | true, some n => .ok n
  | _, _ => refuse (.fieldOutOfRange id f.id)

/-- The index times the stride, which is left out when it is one. -/
def strideTerm (index : Expr) (stride : Nat) : Expr :=
  if stride = 1 then index else .binary .mul index (.int stride)

/-- The terms that the indices of a field contribute to a word index. -/
def indexTerms (ctx : Context) (values : Values) (id : StmtId) :
    List StmtId → List Nat → Except Halt (List Expr)
  | index :: indices, stride :: strides => do
    let v ← ctx.value values id index
    if v.type = .ofPrim .i32 then
      let terms ← indexTerms ctx values id indices strides
      .ok (strideTerm v.expr stride :: terms)
    else
      mismatch id (.fieldIndex index v.type)
  | _, _ => .ok []

/-- The sum of the terms and of `base`, which is left out when it is zero and not alone. -/
def sumTerms (terms : List Expr) (base : Nat) : Expr :=
  match terms with
  | [] => .int base
  | t :: ts =>
    let sum := ts.foldl (.binary .add) t
    if base = 0 then sum else .binary .add sum (.int base)

/-- Word index of a field element. -/
def lowerGlobalPtr (ctx : Context) (values : Values) (id : StmtId) (f : Field)
    (indices : List StmtId) (elementOffset : Nat) : Except Halt Lowering := do
  checkPrim id f.dtype
  let strides ← fieldStrides id f
  let terms ← indexTerms ctx values id indices strides
  match fitIndex (f.offsetWords + elementOffset) with
  | some base => Lowering.define id (.ofPrim .i32) (sumTerms terms base)
  | none => refuse (.fieldOutOfRange id f.id)

/-- Field addressed by a pointer. -/
def fieldOf (ctx : Context) (user ptr : StmtId) : Except Halt Field := do
  match ← ctx.kindOf ptr with
  | .globalPtr field _ _ => .ok field
  | _ => mismatch user (.notGlobalPointer ptr)

/-- Fields that are read-only refuse writes in every stage. -/
def checkFieldWritable (ctx : Context) (id : StmtId) (f : Field) : Except Halt Unit := do
  ctx.checkWritable id (.root f.buffer)
  if f.writable then .ok () else refuse (.readOnlyResource id (.field f.id) ctx.stage)

/-- A word of a field, as a value of its type. -/
def lowerGlobalLoad (ctx : Context) (values : Values) (id ptr : StmtId) :
    Except Halt Lowering := do
  let field ← fieldOf ctx id ptr
  let index ← ctx.value values id ptr
  let word := Expr.word (.root field.buffer) index.expr
  Lowering.define id (.ofPrim field.dtype) (fromWord word field.dtype) .done
    [ctx.useRoot field.buffer]

/-- An assignment to a word of a field. -/
def lowerGlobalStore (ctx : Context) (values : Values) (id ptr value : StmtId) :
    Except Halt Lowering := do
  let field ← fieldOf ctx id ptr
  checkFieldWritable ctx id field
  let v ← ctx.value values id value
  requireType id v (.ofPrim field.dtype)
  let index ← ctx.value values id ptr
  let word := Expr.word (.root field.buffer) index.expr
  .ok (.emit (.assign word (toWord v.expr field.dtype)) [ctx.useRoot field.buffer])

/-! ## Global temporaries -/

/-- Word index of the global temporary at a byte offset. -/
def temporaryWord (config : Config) (id : StmtId) (offset : Nat) : Except Halt Nat :=
  if offset % 4 ≠ 0 then refuse (.misalignedTemporary id offset)
  else if config.globalTmpsBytes < offset + 4 then
    refuse (.undeclaredResource id (.temporary offset config.globalTmpsBytes))
  else .ok (offset / 4)

/-- A temporary stands for its word index. -/
def lowerTemporary (ctx : Context) (id : StmtId) (ty : Prim) (offset : Nat) :
    Except Halt Lowering := do
  checkPrim id ty
  let word ← temporaryWord ctx.config id offset
  .ok (.standIn (.lit (.abstract word)) (.ofPrim ty))

/-- Word index and type of a temporary. -/
def temporarySlot (ctx : Context) (values : Values) (user ptr : StmtId) : Except Halt Value := do
  match ← ctx.kindOf ptr with
  | .temporary .. => ctx.value values user ptr
  | _ => mismatch user (.notTemporary ptr)

/-- A word of a temporary. -/
def lowerTemporaryLoad (ctx : Context) (values : Values) (id ptr : StmtId) :
    Except Halt Lowering := do
  let slot ← temporarySlot ctx values id ptr
  let word := Expr.word .globalTmps slot.expr
  Lowering.define id slot.type (fromWord word slot.type.prim) .done [ctx.useGlobalTmps]

/-- An assignment to a temporary. -/
def lowerTemporaryStore (ctx : Context) (values : Values) (id ptr value : StmtId) :
    Except Halt Lowering := do
  ctx.checkWritable id .globalTmps
  let slot ← temporarySlot ctx values id ptr
  let v ← ctx.value values id value
  requireType id v slot.type
  let word := Expr.word .globalTmps slot.expr
  .ok (.emit (.assign word (toWord v.expr slot.type.prim)) [ctx.useGlobalTmps])

/-! ## Atomics -/

/-- The word an atomic statement works on, its element kind, and the use of its buffer. -/
structure AtomicTarget where
  word : Expr
  prim : Prim
  use : Use
  deriving Repr

/-- The atomic view of the word behind `ptr`.  It is writable, so graphics stages refuse it; a
read-only field refuses only what writes. -/
def atomicTarget (ctx : Context) (values : Values) (user ptr : StmtId) (write : Bool) :
    Except Halt AtomicTarget := do
  match ← ctx.kindOf ptr with
  | .globalPtr field _ _ =>
    if write then checkFieldWritable ctx user field
    else ctx.checkWritable user (.rootAtomic field.buffer)
    let index ← ctx.value values user ptr
    .ok ⟨.word (.rootAtomic field.buffer) index.expr, field.dtype,
      Context.useRootAtomic field.buffer⟩
  | .temporary ty _ =>
    ctx.checkWritable user .globalTmpsAtomic
    let slot ← ctx.value values user ptr
    .ok ⟨.word .globalTmpsAtomic slot.expr, ty, ctx.useGlobalTmpsAtomic⟩
  | _ => mismatch user (.notAtomicTarget ptr)

/-- The function that performs an atomic operator on integers. -/
def atomicFunc : AtomicOp → Func
  | .add => .atomicAdd
  | .sub => .atomicSub
  | .max => .atomicMax
  | .min => .atomicMin

/-- An atomic operator on floats, as an expression. -/
def combine : AtomicOp → Expr → Expr → Expr
  | .add, a, b => .binary .add a b
  | .sub, a, b => .binary .sub a b
  | .max, a, b => .func .max [a, b]
  | .min, a, b => .func .min [a, b]

/-- Atomic update of a float: its bits are exchanged until no other invocation came between. -/
def exchangeLoop (id : StmtId) (op : AtomicOp) (target operand : Expr) : Code :=
  let seen := Expr.ident (.seen id)
  let wanted := Expr.ident (.wanted id)
  let outcome := Expr.ident (.outcome id)
  let current := Expr.bitcast ⟨.f32, 1⟩ seen
  .line (.declare (.seen id) ⟨.i32, 1⟩ (some (.func .atomicLoad [.address target]))) <|
    .loop
      (.line (.letBind (.wanted id) (some ⟨.i32, 1⟩)
          (.bitcast ⟨.i32, 1⟩ (combine op current operand))) <|
        .line (.letBind (.outcome id) none
          (.func .atomicCompareExchangeWeak [.address target, seen, wanted])) <|
        .branch (.select outcome .exchanged) (.line .exitLoop .done) <|
        .line (.assign seen (.select outcome .oldValue)) .done)
      .done

/-- Read-modify-write of a word.  The value of the statement is the word before. -/
def lowerAtomic (ctx : Context) (values : Values) (id : StmtId) (op : AtomicOp)
    (dest value : StmtId) : Except Halt Lowering := do
  let target ← atomicTarget ctx values id dest true
  let v ← ctx.value values id value
  requireType id v (.ofPrim target.prim)
  if target.prim = .i32 then
    Lowering.define id (.ofPrim target.prim)
      (.func (atomicFunc op) [.address target.word, v.expr]) .done [target.use]
  else
    Lowering.define id (.ofPrim target.prim) (.bitcast ⟨.f32, 1⟩ (.ident (.seen id)))
      (exchangeLoop id op target.word v.expr) [target.use]

/-- The value behind an atomic pointer. -/
def lowerAtomicLoad (ctx : Context) (values : Values) (id ptr : StmtId) :
    Except Halt Lowering := do
  let target ← atomicTarget ctx values id ptr false
  Lowering.define id (.ofPrim target.prim)
    (fromWord (.func .atomicLoad [.address target.word]) target.prim) .done [target.use]

/-- An assignment behind an atomic pointer. -/
def lowerAtomicStore (ctx : Context) (values : Values) (id ptr value : StmtId) :
    Except Halt Lowering := do
  let target ← atomicTarget ctx values id ptr true
  let v ← ctx.value values id value
  requireType id v (.ofPrim target.prim)
  .ok (.emit (.perform (.func .atomicStore [.address target.word, toWord v.expr target.prim]))
    [target.use])

end WgslKernel.Codegen
