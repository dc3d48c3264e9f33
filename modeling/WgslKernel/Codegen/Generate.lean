import WgslKernel.Codegen.Walk
import WgslKernel.Digest.Blake3

/-!
# Generating a shader

The shader of an offload.  A parallel loop is spread over all invocations of a dispatch, a
graphics stage runs once per vertex or fragment, and a serial offload runs in one invocation.  A
fragment shader starts from the task of its vertex stage: the two share binding slots, and the
fragment reads what the vertex stage writes.
-/

namespace WgslKernel.Codegen

/-- What generation makes of an offload. -/
structure Program where
  shader : Shader
  /-- Workgroups to dispatch, and where the iteration count comes from. -/
  numWorkgroups : Nat := 1
  range : Option RangeHint := none
  deriving Repr

/-- The body of an offload as walked, with what its prologue and dispatch need. -/
structure Draft where
  state : State
  body : Code
  /-- Lines ahead of the body, besides the seeding of random numbers. -/
  prologue : List Line := []
  numWorkgroups : Nat := 1
  range : Option RangeHint := none

/-! ## The parallel loop -/

/-- Bound of a parallel loop: its end, the hint for the host, and the resources of the end. -/
structure GridBound where
  stop : Expr
  hint : RangeHint
  uses : List Use := []
  deriving Repr

/-- The bound is known before the dispatch: a constant, a field, or a word of a temporary. -/
def gridBound (ctx : Context) (root : StmtId) : RangeBound → Except Halt GridBound
  | .field f => do
    let n ← fieldElements root f
    .ok { stop := .int n, hint := .fieldElements f.id n }
  | .value v => do
    match ← ctx.kindOf v with
    | .const (.i32 n) =>
      let count := n.toInt.toNat
      .ok { stop := .int count, hint := .const count }
    | .const (.f32 _) => mismatch root (.rangeBound (.ofPrim .f32))
    | .temporaryLoad ptr => do
      match ← ctx.kindOf ptr with
      | .temporary .i32 offset =>
        let word ← temporaryWord ctx.config ptr offset
        .ok
          { stop := .word .globalTmps (.lit (.abstract word))
            hint := .dynamic offset
            uses := [ctx.useGlobalTmps] }
      | _ => mismatch root .dynamicBound
    | _ => refuse (.crossOffloadReference root v)

/-- Workgroups to dispatch for a parallel loop. -/
def workgroups (config : Config) : RangeHint → Except Halt Nat
  | .const n | .fieldElements _ n => orFault (config.workgroupsFor n)
  | .dynamic _ => .ok config.dynamicWorkgroups

/-- Every invocation strides over the iterations by the number of all invocations. -/
def gridLoop : LoopHeader :=
  ⟨.gridIndex, .convert ⟨.i32, 1⟩ (.select (.ident .globalInvocationId) .x), .ident .rangeEnd,
    .ident .totalInvocs⟩

/-- The lines that name the stride and the end of the parallel loop. -/
def gridPrologue (config : Config) (stop : Expr) : List Line :=
  [.letBind .totalInvocs none
      (.binary .mul (.convert ⟨.i32, 1⟩ (.select (.ident .numWorkgroups) .x))
        (.int config.workgroupSize)),
    .letBind .rangeEnd (some ⟨.i32, 1⟩) stop]

/-- A parallel loop. -/
def draftRangeFor (ctx : Context) (st : State) (root : StmtId) : Except Halt Draft := do
  let s ← orFault (ctx.module.stmt root)
  match s.kind with
  | .rangeFor bound _ body => do
    let b ← gridBound ctx root bound
    let st ← orFault (b.uses.foldlM State.use st)
    let numWorkgroups ← workgroups ctx.config b.hint
    let (st, code) ← walk { ctx with gridLoop := some root } st (ctx.module.outline body)
    .ok
      { state := st
        body := .countLoop gridLoop code .done
        prologue := gridPrologue ctx.config b.stop
        numWorkgroups
        range := some b.hint }
  | _ => refuse (ctx.noHandler s)

/-! ## Graphics stages -/

/-- A graphics stage.  A vertex stage always has a position. -/
def draftGraphics (ctx : Context) (st : State) (root : StmtId) : Except Halt Draft := do
  let s ← orFault (ctx.module.stmt root)
  match ctx.stage, s.kind with
  | .vertex, .vertexFor body => do
    let outputs ← State.addMember root st.outputs .position
    let (st, code) ← walk ctx { st with outputs } (ctx.module.outline body)
    .ok { state := st, body := code }
  | .fragment, .fragmentFor body => do
    let (st, code) ← walk ctx st (ctx.module.outline body)
    .ok { state := st, body := code }
  | _, _ => refuse (ctx.noHandler s)

/-! ## Assembly -/

/-- Walk an offload in the way of its kind. -/
def draft (ctx : Context) (st : State) (o : Offload) : Except Halt Draft :=
  match o.kind, o.root? with
  | .rangeFor, some root => draftRangeFor ctx st root
  | .vertexFor, some root | .fragmentFor, some root => draftGraphics ctx st root
  | _, _ => do
    let (st, code) ← walkTop ctx st o.stmts
    .ok { state := st, body := code }

/-- Invocations per workgroup: only parallel loops have more than one. -/
def workgroupSize (config : Config) : OffloadKind → Nat
  | .rangeFor => config.workgroupSize
  | _ => 1

/-- The program of a draft. -/
def assemble (ctx : Context) (kind : OffloadKind) (d : Draft) : Program :=
  let seeding := if d.state.random then seedLines ctx else []
  { shader :=
      { stage := ctx.stage
        workgroupSize := workgroupSize ctx.config kind
        globals := d.state.globals
        random := d.state.random
        layout := ⟨d.state.inputs, d.state.outputs⟩
        prologue := .ofLines (d.prologue ++ seeding)
        body := d.body }
    numWorkgroups := d.numWorkgroups
    range := d.range }

/-- The program of an offload.  `previous` is the task of the stage before a fragment stage. -/
def program (m : Module) (o : Offload) (signature : Signature) (config : Config)
    (previous : Option Task) : Except Halt Program := do
  let bindings ← orFault
    (BindingMap.ofBindings (match previous with | some t => t.bindings | none => []))
  let varyings := match previous with | some t => t.outputs | none => []
  let ctx : Context := { module := m, config, signature, stage := o.kind.stage, varyings }
  let d ← draft ctx { bindings } o
  .ok (assemble ctx o.kind d)

/-- The descriptor of a generated program. -/
def Program.task (p : Program) (kind : OffloadKind) (signature : Signature) : Task :=
  let code := p.shader.text
  { kind
    entryPoint := "main"
    code
    codeHash := Blake3.hex code.toUTF8.toList
    bindings := p.shader.globals.map Global.binding
    signature
    dispatch :=
      match p.shader.stage with
      | .compute => .compute p.shader.workgroupSize p.numWorkgroups p.range
      | .vertex => .vertex p.shader.layout
      | .fragment => .fragment p.shader.layout }

end WgslKernel.Codegen

namespace WgslKernel

/-- Generate the shader of an offload. -/
def generate (m : Module) (o : Offload) (signature : Signature) (config : Config)
    (previous : Option Task) : Except Halt Task := do
  let p ← Codegen.program m o signature config previous
  .ok (p.task o.kind signature)

end WgslKernel
