import WgslKernel.Codegen.Basic

/-!
# Arguments, stage interfaces, textures and random numbers

Everything through which a shader meets its surroundings.
-/

namespace WgslKernel.Codegen

/-! ## Kernel arguments and returns -/

/-- Load a word of the argument block. -/
def lowerArgLoad (ctx : Context) (id : StmtId) (ty : Prim) (arg : Nat) :
    Except Halt Lowering := do
  checkPrim id ty
  if ctx.signature.argBytes < (arg + 1) * 4 then
    refuse (.undeclaredResource id (.argument arg ctx.signature.argBytes))
  else
    let word := Expr.word .args (.lit (.abstract arg))
    Lowering.define id (.ofPrim ty) (fromWord word ty) .done [ctx.useArgs]

/-- The words that scalar operands are stored as. -/
def operandWords (ctx : Context) (values : Values) (id : StmtId) :
    List StmtId → Except Halt (List Expr)
  | [] => .ok []
  | operand :: operands => do
    let v ← ctx.scalar values id operand
    checkPrim id v.type.prim
    let words ← operandWords ctx values id operands
    .ok (toWord v.expr v.type.prim :: words)

/-- Assignments of the words of the return block, from word `k` on. -/
def returnLines (k : Nat) : List Expr → List Line
  | [] => []
  | word :: words =>
    .assign (.word .rets (.lit (.abstract k))) word :: returnLines (k + 1) words

/-- Store the return values. -/
def lowerReturn (ctx : Context) (values : Values) (s : Stmt) (operands : List StmtId) :
    Except Halt Lowering := do
  ctx.requireStage s .compute
  if ctx.signature.retBytes < operands.length * 4 then
    refuse (.undeclaredResource s.id (.returns operands.length ctx.signature.retBytes))
  else
    let words ← operandWords ctx values s.id operands
    .ok { code := .ofLines (returnLines 0 words), uses := [ctx.useRets] }

/-! ## Stage inputs and outputs -/

/-- A vertex attribute, read from the stage inputs. -/
def lowerVertexInput (ctx : Context) (s : Stmt) (ty : Prim) (location : Nat) :
    Except Halt Lowering := do
  ctx.requireStage s .vertex
  let type ← shaderType s.id (.ofPrim ty)
  let name := MemberName.vertexAttribute location
  let l ← Lowering.define s.id (.ofPrim ty) (.input name)
  .ok { l with inputs := [.located name type location ty] }

/-- A varying, written to the stage outputs. -/
def lowerVertexOutput (ctx : Context) (values : Values) (s : Stmt) (value : StmtId)
    (location : Nat) : Except Halt Lowering := do
  ctx.requireStage s .vertex
  let v ← ctx.value values s.id value
  let type ← shaderType s.id v.type
  let name := MemberName.varying location
  .ok { Lowering.emit (.assign (.output name) v.expr) with
    outputs := [.located name type location v.type.prim] }

/-- A fragment input has to be written by the vertex stage, with the same type. -/
def checkVarying (ctx : Context) (id : StmtId) (type : ShaderType) (location : Nat) :
    Except Halt Unit :=
  let isThere (m : StageMember) : Bool :=
    match m.slot with
    | .location n _ => n == location
    | .builtin _ => false
  match ctx.varyings.find? isThere with
  | none => refuse (.undeclaredResource id (.varying location))
  | some out =>
    if out.type = type then .ok () else mismatch id (.varyingType location type out.type)

/-- A varying, read from the stage inputs. -/
def lowerFragmentInput (ctx : Context) (s : Stmt) (ty : Prim) (location : Nat) :
    Except Halt Lowering := do
  ctx.requireStage s .fragment
  let type ← shaderType s.id (.ofPrim ty)
  let name := MemberName.varying location
  checkVarying ctx s.id type location
  let l ← Lowering.define s.id (.ofPrim ty) (.input name)
  .ok { l with inputs := [.located name type location ty] }

/-- Built-in inputs.  The indices are unsigned in the pipeline and signed in a kernel. -/
def lowerBuiltinInput (ctx : Context) (s : Stmt) : BuiltinInput → Except Halt Lowering
  | .vertexIndex => do
    ctx.requireStage s .vertex
    let l ← Lowering.define s.id (.ofPrim .i32) (.convert ⟨.i32, 1⟩ (.input .vertexIndex))
    .ok { l with inputs := [.vertexIndex] }
  | .instanceIndex => do
    ctx.requireStage s .vertex
    let l ← Lowering.define s.id (.ofPrim .i32) (.convert ⟨.i32, 1⟩ (.input .instanceIndex))
    .ok { l with inputs := [.instanceIndex] }
  | .fragCoord => do
    ctx.requireStage s .fragment
    let l ← Lowering.define s.id ⟨.f32, 4⟩ (.input .fragCoord)
    .ok { l with inputs := [.fragCoord] }

/-- A scalar operand as a float. -/
def floatOperand (ctx : Context) (values : Values) (id operand : StmtId) : Except Halt Expr := do
  let v ← ctx.scalar values id operand
  checkPrim id v.type.prim
  .ok (v.coerce .f32 1)

/-- Four scalar operands as one float vector. -/
def floatVector (ctx : Context) (values : Values) (id : StmtId) (q : Quad) :
    Except Halt Expr := do
  let floats ← q.toList.mapM (floatOperand ctx values id)
  .ok (.call (.construct ⟨.f32, 4⟩) floats)

/-- Built-in outputs.  The operands are looked at before the stage. -/
def lowerBuiltinOutput (ctx : Context) (values : Values) (s : Stmt) :
    BuiltinOutput → Except Halt Lowering
  | .position q => do
    let v ← floatVector ctx values s.id q
    ctx.requireStage s .vertex
    .ok (.emit (.assign (.output .position) v))
  | .color location q => do
    let v ← floatVector ctx values s.id q
    ctx.requireStage s .fragment
    let name := MemberName.color location
    .ok { Lowering.emit (.assign (.output name) v) with
      outputs := [.located name ⟨.f32, 4⟩ location .f32] }
  | .fragDepth value => do
    let v ← floatOperand ctx values s.id value
    ctx.requireStage s .fragment
    .ok { Lowering.emit (.assign (.output .fragDepth) v) with outputs := [.fragDepth] }

/-- How a value changes from pixel to pixel. -/
def lowerDerivative (ctx : Context) (values : Values) (s : Stmt) (axis : Axis)
    (operand : StmtId) : Except Halt Lowering := do
  ctx.requireStage s .fragment
  let v ← ctx.value values s.id operand
  checkPrim s.id v.type.prim
  let f : Func := match axis with | .x => .dpdx | .y => .dpdy
  let n := v.type.components
  Lowering.define s.id ⟨.f32, n⟩ (.func f [v.coerce .f32 n])

/-- The fragment is dropped. -/
def lowerDiscard (ctx : Context) (s : Stmt) : Except Halt Lowering := do
  ctx.requireStage s .fragment
  .ok (.emit .discard)

/-! ## Textures -/

/-- Scalars packed into one vector, or alone if there is just one. -/
def vectorOf (values : List Value) (prim : Prim) : Expr :=
  match values.map fun v => v.coerce prim 1 with
  | [e] => e
  | parts => .call (.construct ⟨prim.toScalar, parts.length⟩) parts

/-- Use of a texture that is read. -/
def useTexture (id : StmtId) (t : Texture) : Except Halt Use :=
  match t.format.isDepth, t.dim with
  | true, .d3 => mismatch id (.depthVolume t.id)
  | true, dim => .ok ⟨.texture t.id, .handle (.depth dim)⟩
  | false, dim => .ok ⟨.texture t.id, .handle (.sampled dim)⟩

/-- Use of a texture that is written. -/
def useStorageTexture (id : StmtId) (t : Texture) : Except Halt Use :=
  match t.format.storageName with
  | none => mismatch id (.depthStore t.id)
  | some format =>
    match t.dim with
    | .cube => mismatch id (.cubeStore t.id)
    | dim => .ok ⟨.storageTexture t.id, .handle (.storage dim format)⟩

/-- Type of what is read from a texture: depth textures have one channel. -/
def texelType (t : Texture) : ValueType := if t.format.isDepth then .ofPrim .f32 else ⟨.f32, 4⟩

/-- Read a texture through its sampler.  Only fragment shaders choose the level of detail. -/
def sampleTexture (ctx : Context) (id : StmtId) (t : Texture) (coords : List Value)
    (level : Option Value) : Except Halt Lowering := do
  let texture ← useTexture id t
  let levelPrim : Prim := if t.format.isDepth then .i32 else .f32
  let place := [.ident (.resource (.texture t.id)), .ident (.resource (.sampler t.id)),
    vectorOf coords .f32]
  let e : Expr :=
    match level with
    | some v => .func .textureSampleLevel (place ++ [v.coerce levelPrim 1])
    | none =>
      if ctx.stage = .fragment then .func .textureSample place
      else .func .textureSampleLevel (place ++ [.zero levelPrim])
  Lowering.define id (texelType t) e .done [texture, ⟨.sampler t.id, .handle .sampler⟩]

/-- A texture access, by what it does. -/
def lowerTexture (ctx : Context) (values : Values) (id : StmtId) (access : TextureAccess)
    (t : Texture) (coords : List StmtId) : Except Halt Lowering := do
  let coords ← coords.mapM (ctx.scalar values id)
  match access with
  | .sample => sampleTexture ctx id t coords none
  | .sampleLod level => do
    let v ← ctx.scalar values id level
    sampleTexture ctx id t coords (some v)
  | .load => do
    if t.dim = .cube then mismatch id (.cubeLoad t.id)
    else
      let texture ← useTexture id t
      let e := Expr.func .textureLoad
        [.ident (.resource (.texture t.id)), vectorOf coords .i32, .int 0]
      Lowering.define id (texelType t) e .done [texture]
  | .store texel => do
    ctx.checkWritable id (.storageTexture t.id)
    let v ← floatVector ctx values id texel
    let texture ← useStorageTexture id t
    .ok (.emit
      (.perform (.func .textureStore
        [.ident (.resource (.storageTexture t.id)), vectorOf coords .i32, v]))
      [texture])

/-! ## Random numbers -/

/-- The number that distinguishes the generators of different invocations. -/
def randId : Stage → Expr
  | .compute => .select (.ident .globalInvocationId) .x
  | .vertex => .input .vertexIndex
  | .fragment =>
    let coord (s : Selector) : Expr := .convert ⟨.u32, 1⟩ (.select (.input .fragCoord) s)
    .binary .add (coord .x) (.binary .mul (coord .y) (.lit (.uint 65536)))

/-- The stage inputs that `randId` reads. -/
def randInputs : Stage → List StageMember
  | .compute => []
  | .vertex => [.vertexIndex]
  | .fragment => [.fragCoord]

/-- Seeding of the random numbers, from the invocation and from a word that the host writes. -/
def seedLines (ctx : Context) : List Line :=
  let state (s : Selector) : Expr := .select (.ident .randState) s
  let seed := Expr.word .globalTmps (.lit (.abstract ctx.config.randSeedWord))
  [.letBind .randId (some ⟨.u32, 1⟩) (randId ctx.stage),
    .assign (state .x)
      (.binary .mul (.binary .mul (.lit (.uint 123456789)) (.ident .randId))
        (.lit (.uint 1000000007))),
    .assign (state .y) (.lit (.uint 362436069)),
    .assign (state .z) (.lit (.uint 521288629)),
    .assign (state .w)
      (.binary .bitXor (.lit (.uint 88675123)) (.convert ⟨.u32, 1⟩ seed))]

/-- The next random number, of a given type. -/
def lowerRand (ctx : Context) (id : StmtId) (ty : Prim) : Except Halt Lowering := do
  checkPrim id ty
  let e : Expr :=
    match ty with
    | .f32 => .func .randF32 []
    | _ => .convert ⟨.i32, 1⟩ (.func .randU32 [])
  let l ← Lowering.define id (.ofPrim ty) e .done [ctx.useGlobalTmps]
  .ok { l with inputs := randInputs ctx.stage, random := true }

end WgslKernel.Codegen
