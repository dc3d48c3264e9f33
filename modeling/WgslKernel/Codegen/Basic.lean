import WgslKernel.Codegen.Error
import WgslKernel.Config
import WgslKernel.Shader.Basic
import WgslKernel.Task

/-!
# What a statement contributes to a shader

A shader is generated by one walk over an offload.  For each statement, `Lowering` says everything
the statement adds: lines of code, a value for later statements to read, the resources it uses and
the stage members it touches.  Lowering a statement only reads the walk's context and the values
so far; putting its contribution into the shader is one operation for all kinds of statement
(`State.apply`).
-/

namespace WgslKernel.Codegen

/-! ## Values -/

/-- A generated value: the expression standing for it, and its type. -/
structure Value where
  expr : Expr
  type : ValueType
  deriving Repr

/-- The values of the statements visited so far, the latest first. -/
abbrev Values := List (StmtId × Value)

/-- The value of a constant is its literal. -/
def Value.ofConst : Const → Value
  | .i32 v => ⟨Expr.ofInt32 v, .ofPrim .i32⟩
  | .f32 bits => ⟨Expr.ofFloat bits, .ofPrim .f32⟩

/-- `v` converted to `prim`, and spread over `components` when it is a scalar. -/
def Value.coerce (v : Value) (prim : Prim) (components : Nat) : Expr :=
  let converted :=
    if v.type.prim = prim then v.expr
    else Expr.convert ⟨prim.toScalar, v.type.components⟩ v.expr
  if v.type.components = components then converted
  else Expr.convert ⟨prim.toScalar, components⟩ converted

/-- A scalar as the 32-bit word a buffer holds. -/
def toWord (e : Expr) : Prim → Expr
  | .f32 => Expr.bitcast ⟨.i32, 1⟩ e
  | _ => e

/-- A word of a buffer as a scalar. -/
def fromWord (e : Expr) : Prim → Expr
  | .f32 => Expr.bitcast ⟨.f32, 1⟩ e
  | _ => e

/-! ## Context -/

/-- What stays fixed during a walk. -/
structure Context where
  module : Module
  config : Config
  signature : Signature
  stage : Stage
  /-- The range-for whose iterations are spread over invocations. -/
  gridLoop : Option StmtId := none
  /-- Outputs of the vertex stage feeding this fragment stage. -/
  varyings : List StageMember := []

namespace Context

/-- What statement `id` does. -/
def kindOf (ctx : Context) (id : StmtId) : Except Halt Kind := do
  let s ← orFault (ctx.module.stmt id)
  .ok s.kind

/-- The value of `operand` as read by `user`.  Constants outside the offload are spelled out. -/
def value (ctx : Context) (values : Values) (user operand : StmtId) : Except Halt Value :=
  match values.lookup operand with
  | some v => .ok v
  | none => do
    match ← ctx.kindOf operand with
    | .const c => .ok (.ofConst c)
    | _ => refuse (.crossOffloadReference user operand)

/-- The value of an operand that has to be a scalar. -/
def scalar (ctx : Context) (values : Values) (user operand : StmtId) : Except Halt Value := do
  let v ← ctx.value values user operand
  if v.type.isScalar then .ok v else mismatch user (.notScalar operand v.type)

/-- The error that a kind of statement has no place in the current stage. -/
def noHandler (ctx : Context) (s : Stmt) : CodegenError := .noHandler s.id s.kind.name ctx.stage

/-- The statement belongs to one stage. -/
def requireStage (ctx : Context) (s : Stmt) (stage : Stage) : Except Halt Unit :=
  if ctx.stage = stage then .ok () else refuse (ctx.noHandler s)

/-- Writing is refused in the graphics stages, which bind everything for reading. -/
def checkWritable (ctx : Context) (id : StmtId) (r : Resource) : Except Halt Unit :=
  if ctx.stage.isGraphics then refuse (.readOnlyResource id (.resource r) ctx.stage) else .ok ()

end Context

/-- The shader type of a value that statement `id` computes. -/
def shaderType (id : StmtId) (t : ValueType) : Except Halt ShaderType :=
  match t.shaderType with
  | .ok type => .ok type
  | .error cause => refuse (.unsupportedType id cause)

/-- Statement `id` uses a primitive kind that shaders have to know. -/
def checkPrim (id : StmtId) (p : Prim) : Except Halt Unit :=
  match p.scalar? with
  | .ok _ => .ok ()
  | .error cause => refuse (.unsupportedType id cause)

/-- Stores never convert: the value must already have the type of the place. -/
def requireType (id : StmtId) (v : Value) (expected : ValueType) : Except Halt Unit :=
  if v.type = expected then .ok () else mismatch id (.storeType v.type expected)

/-! ## Lowerings -/

/-- Use of a resource, with the declaration it gets if it is not declared yet. -/
structure Use where
  resource : Resource
  declaration : Declaration
  deriving DecidableEq, Repr

/-- What one statement adds to a shader. -/
structure Lowering where
  code : Code := .done
  value : Option Value := none
  /-- Resources in the order of use. -/
  uses : List Use := []
  inputs : List StageMember := []
  outputs : List StageMember := []
  /-- Whether the statement draws a random number. -/
  random : Bool := false
  deriving Repr

namespace Lowering

/-- Bind an expression to the temporary of statement `id`, after the lines `before`. -/
def define (id : StmtId) (t : ValueType) (e : Expr) (before : Code := .done)
    (uses : List Use := []) : Except Halt Lowering := do
  let type ← shaderType id t
  .ok
    { code := before ++ Code.line (.letBind (.temp id) (some type) e) .done
      value := some ⟨.ident (.temp id), t⟩
      uses }

/-- Let a statement stand for an expression, without code. -/
def standIn (e : Expr) (t : ValueType) : Lowering := { value := some ⟨e, t⟩ }

/-- A single line. -/
def emit (l : Line) (uses : List Use := []) : Lowering := { code := .line l .done, uses }

end Lowering

/-! ## Resources by name -/

namespace Context

/-- Storage buffers can be written in compute shaders only. -/
def buffersWritable (ctx : Context) : Bool := ctx.stage == .compute

/-- The words of a root buffer. -/
def useRoot (ctx : Context) (buffer : Nat) : Use :=
  ⟨.root buffer, .buffer false none ctx.buffersWritable⟩

/-- The atomic view of a root buffer. -/
def useRootAtomic (buffer : Nat) : Use := ⟨.rootAtomic buffer, .buffer true none true⟩

/-- The words of the global temporaries. -/
def useGlobalTmps (ctx : Context) : Use :=
  ⟨.globalTmps, .buffer false (some ctx.config.globalTmpsWords) ctx.buffersWritable⟩

/-- The atomic view of the global temporaries. -/
def useGlobalTmpsAtomic (ctx : Context) : Use :=
  ⟨.globalTmpsAtomic, .buffer true (some ctx.config.globalTmpsWords) true⟩

/-- The argument block, which is only read. -/
def useArgs (ctx : Context) : Use :=
  ⟨.args, .buffer false (some (Config.ceilDiv ctx.signature.argBytes 4)) false⟩

/-- The return block, which is written. -/
def useRets (ctx : Context) : Use :=
  ⟨.rets, .buffer false (some (Config.ceilDiv ctx.signature.retBytes 4)) true⟩

end Context

/-! ## The state of a walk -/

/-- Everything collected so far, apart from the code. -/
structure State where
  values : Values := []
  /-- Slots in use, those of an earlier stage included. -/
  bindings : BindingMap := {}
  /-- Resources declared by this shader, in order. -/
  globals : List Global := []
  inputs : List StageMember := []
  outputs : List StageMember := []
  random : Bool := false
  deriving Repr

namespace State

/-- Declare a resource at its first use.  It keeps the slot of an earlier stage, or takes the next.
-/
def use (st : State) (u : Use) : Except Fault State :=
  if st.globals.any (fun g => g.binding.resource = u.resource) then .ok st
  else
    match st.bindings.get? u.resource with
    | some slot =>
      .ok { st with globals := st.globals ++ [⟨⟨u.resource, slot⟩, u.declaration⟩] }
    | none => do
      let slot ← st.bindings.nextSlot
      let bindings ← st.bindings.add u.resource slot
      .ok { st with
        bindings, globals := st.globals ++ [⟨⟨u.resource, slot⟩, u.declaration⟩] }

/-- Add a member to a stage structure.  A name can be used again, but only for the same member. -/
def addMember (id : StmtId) (members : List StageMember) (m : StageMember) :
    Except Halt (List StageMember) :=
  match members.find? fun other => other.name = m.name with
  | none => .ok (members ++ [m])
  | some other =>
    if other = m then .ok members else mismatch id (.memberType m.name other.type m.type)

/-- Take in what statement `id` contributes. -/
def apply (st : State) (id : StmtId) (l : Lowering) : Except Halt State := do
  let st ← orFault (l.uses.foldlM State.use st)
  let inputs ← l.inputs.foldlM (addMember id) st.inputs
  let outputs ← l.outputs.foldlM (addMember id) st.outputs
  let values :=
    match l.value with
    | some v => (id, v) :: st.values
    | none => st.values
  .ok { st with values, inputs, outputs, random := st.random || l.random }

end State

end WgslKernel.Codegen
