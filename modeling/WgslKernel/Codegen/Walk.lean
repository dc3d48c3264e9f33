import WgslKernel.Codegen.Arithmetic
import WgslKernel.Codegen.Interface
import WgslKernel.Codegen.Memory

/-!
# The walk over an offload

`walk` visits the statements of an outline in order, a control-flow statement before what it
contains, and returns the code it emits together with everything it collected.
-/

namespace WgslKernel.Codegen

/-- The current iteration of a loop around the statement. -/
def lowerLoopIndex (ctx : Context) (s : Stmt) (loop : StmtId) : Except Halt Lowering :=
  if ctx.gridLoop = some loop then .ok (.standIn (.ident .gridIndex) (.ofPrim .i32))
  else if loop ∈ ctx.module.enclosing s.block then
    .ok (.standIn (.ident (.counter loop)) (.ofPrim .i32))
  else refuse (.crossOffloadReference s.id loop)

/-- Lower a statement that owns no blocks. -/
def lower (ctx : Context) (values : Values) (s : Stmt) : Except Halt Lowering :=
  match s.kind with
  | .const c => .ok { value := some (.ofConst c) }
  | .loopIndex loop => lowerLoopIndex ctx s loop
  | .argLoad ty arg => lowerArgLoad ctx s.id ty arg
  | .rand ty => lowerRand ctx s.id ty
  | .unary op x => lowerUnary ctx values s.id op x
  | .binary op x y => lowerBinary ctx values s.id op x y
  | .exitLoop => .ok (.emit .exitLoop)
  | .nextIteration => .ok (.emit .nextIteration)
  | .alloca ty => lowerAlloca s.id ty
  | .localLoad ptr => lowerLocalLoad ctx values s.id ptr
  | .localStore ptr v => lowerLocalStore ctx values s.id ptr v
  | .globalPtr field indices offset => lowerGlobalPtr ctx values s.id field indices offset
  | .globalLoad ptr => lowerGlobalLoad ctx values s.id ptr
  | .globalStore ptr v => lowerGlobalStore ctx values s.id ptr v
  | .temporary ty offset => lowerTemporary ctx s.id ty offset
  | .temporaryLoad ptr => lowerTemporaryLoad ctx values s.id ptr
  | .temporaryStore ptr v => lowerTemporaryStore ctx values s.id ptr v
  | .atomic op dest v => lowerAtomic ctx values s.id op dest v
  | .atomicLoad ptr => lowerAtomicLoad ctx values s.id ptr
  | .atomicStore ptr v => lowerAtomicStore ctx values s.id ptr v
  | .vertexInput ty location => lowerVertexInput ctx s ty location
  | .vertexOutput v location => lowerVertexOutput ctx values s v location
  | .fragmentInput ty location => lowerFragmentInput ctx s ty location
  | .builtinInput input => lowerBuiltinInput ctx s input
  | .builtinOutput output => lowerBuiltinOutput ctx values s output
  | .derivative axis x => lowerDerivative ctx values s axis x
  | .discard => lowerDiscard ctx s
  | .texture access texture coords => lowerTexture ctx values s.id access texture coords
  | .extract composite index => lowerExtract ctx values s.id composite index
  | .ret operands => lowerReturn ctx values s operands
  -- A graphics stage can only be the root of an offload.
  | .vertexFor _ | .fragmentFor _ => refuse (ctx.noHandler s)
  | .branch .. | .whileTrue _ | .rangeFor .. => .ok {}

/-- The condition of a branch: its operand is not zero. -/
def branchCondition (ctx : Context) (values : Values) (id cond : StmtId) : Except Halt Expr := do
  let c ← ctx.scalar values id cond
  .ok (.binary .ne c.expr (.zero c.type.prim))

/-- The bound of a loop inside an offload. -/
def loopBound (ctx : Context) (values : Values) (id : StmtId) : RangeBound → Except Halt Expr
  | .value v => do
    let v ← ctx.scalar values id v
    if v.type.prim = .i32 then .ok v.expr else mismatch id (.rangeBound v.type)
  | .field f => do
    let n ← fieldElements id f
    .ok (.int n)

/-- A loop inside an offload runs serially, from zero in steps of one. -/
def serialLoop (id : StmtId) (bound : Expr) : LoopHeader :=
  ⟨.counter id, .int 0, bound, .int 1⟩

/-- Visit the statements of an outline. -/
def walk (ctx : Context) (st : State) : Outline → Except Halt (State × Code)
  | .nil => .ok (st, .done)
  | .cons s first second rest =>
    match s.kind with
    | .branch cond _ _ => do
      let c ← branchCondition ctx st.values s.id cond
      let (st, yes) ← walk ctx st first
      let (st, no) ← walk ctx st second
      let (st, tail) ← walk ctx st rest
      if second.isEmpty then .ok (st, .branch c yes tail)
      else .ok (st, .branchElse c yes no tail)
    | .whileTrue _ => do
      let (st, body) ← walk ctx st first
      let (st, tail) ← walk ctx st rest
      .ok (st, .loop body tail)
    | .rangeFor bound _ _ => do
      let e ← loopBound ctx st.values s.id bound
      let (st, body) ← walk ctx st first
      let (st, tail) ← walk ctx st rest
      .ok (st, .countLoop (serialLoop s.id e) body tail)
    | _ => do
      let l ← lower ctx st.values s
      let st ← st.apply s.id l
      let (st, tail) ← walk ctx st rest
      .ok (st, l.code ++ tail)

/-- Visit top-level statements one after another. -/
def walkTop (ctx : Context) (st : State) : List StmtId → Except Halt (State × Code)
  | [] => .ok (st, .done)
  | id :: ids => do
    let o ← orFault (ctx.module.outlineAt id)
    let (st, code) ← walk ctx st o
    let (st, tail) ← walkTop ctx st ids
    .ok (st, code ++ tail)

end WgslKernel.Codegen
