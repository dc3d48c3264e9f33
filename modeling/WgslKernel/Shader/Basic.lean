import WgslKernel.Shader.Code

/-!
# Shaders

A whole shader: the resources it declares, the random-number helpers if it needs them, the
structures of its stage interface, and its entry point.  `Shader.text` puts the parts together in
that order.
-/

namespace WgslKernel

/-! ## Resource declarations -/

/-- Type of a texture or sampler. -/
inductive Handle where
  | sampler
  | sampled (dim : TextureDim)
  | depth (dim : TextureDim)
  | storage (dim : TextureDim) (format : String)
  deriving DecidableEq, Repr

/-- How the type of a handle is written. -/
def Handle.name : Handle → String
  | sampler => "sampler"
  | sampled dim => s!"texture_{dim.suffix}<f32>"
  | depth dim => s!"texture_depth_{dim.suffix}"
  | storage dim format => s!"texture_storage_{dim.suffix}<{format}, write>"

/-- Shader-side shape of a resource. -/
inductive Declaration where
  /-- Buffer of 32-bit words; without a length the buffer is as long as what is bound to it. -/
  | buffer (atomic : Bool) (length : Option Nat) (writable : Bool)
  | handle (type : Handle)
  deriving DecidableEq, Repr

/-- A declared resource and the slot it is bound to. -/
structure Global where
  binding : Binding
  declaration : Declaration
  deriving DecidableEq, Repr

/-- The declaration as text. -/
def Global.text (g : Global) : String :=
  let name := g.binding.resource.name
  let slot := g.binding.slot
  match g.declaration with
  | .buffer atomic length writable =>
    let element := if atomic then "atomic<i32>" else "i32"
    let array :=
      match length with
      | some n => s!"array<{element}, {n}>"
      | none => s!"array<{element}>"
    let access := if writable then "read_write" else "read"
    s!"struct {name}_type \x7b\n    member: {array},\n\x7d\n" ++
      s!"@group(0) @binding({slot}) var<storage, {access}> {name}: {name}_type;\n\n"
  | .handle type => s!"@group(0) @binding({slot}) var {name}: {type.name};\n\n"

/-! ## Random numbers -/

/-- State and functions of the random-number generator, an xorshift over four words. -/
def randomHelpers : String :=
  String.join <| List.map (· ++ "\n")
    ["struct RandState \x7b",
      "    x: u32,",
      "    y: u32,",
      "    z: u32,",
      "    w: u32,",
      "\x7d",
      "",
      "var<private> rand_state: RandState;",
      "",
      "fn rand_u32() -> u32 \x7b",
      "    let t = rand_state.x ^ (rand_state.x << 11u);",
      "    rand_state.x = rand_state.y;",
      "    rand_state.y = rand_state.z;",
      "    rand_state.z = rand_state.w;",
      "    rand_state.w = (rand_state.w ^ (rand_state.w >> 19u)) ^ (t ^ (t >> 8u));",
      "    return rand_state.w * 1000000007u;",
      "\x7d",
      "",
      "fn rand_f32() -> f32 \x7b",
      "    return f32(rand_u32() >> 8u) * (1.0 / 16777216.0);",
      "\x7d",
      ""]

/-! ## Shaders -/

/-- A shader, as it is printed. -/
structure Shader where
  stage : Stage
  /-- Invocations per workgroup of a compute shader. -/
  workgroupSize : Nat
  globals : List Global
  /-- Whether the shader draws random numbers. -/
  random : Bool
  layout : StageLayout
  prologue : Code
  body : Code
  deriving Repr

namespace Shader

/-- A stage structure, left out when it has no members. -/
def structText (name : String) (members : List StageMember) : String :=
  if members.isEmpty then ""
  else
    s!"struct {name} \x7b\n" ++
      String.join (members.map fun m => s!"    {m.declaration},\n") ++ "\x7d\n\n"

/-- The entry point up to the opening brace of its body. -/
def signatureText (s : Shader) : String :=
  match s.stage with
  | .compute =>
    s!"@compute @workgroup_size({s.workgroupSize})\n" ++
      "fn main(@builtin(global_invocation_id) global_invocation_id: vec3<u32>, " ++
      "@builtin(num_workgroups) num_workgroups: vec3<u32>) \x7b\n"
  | stage =>
    let param := if s.layout.inputs.isEmpty then "" else "stage_input: StageInput"
    let result := if s.layout.outputs.isEmpty then "" else "-> StageOutput "
    s!"@{stage.name}\nfn main({param}) {result}\x7b\n"

/-- Whether the entry point fills in and returns an output structure. -/
def returnsOutput (s : Shader) : Bool := s.stage.isGraphics && !s.layout.outputs.isEmpty

/-- The shader as text. -/
def text (s : Shader) : String :=
  String.join (s.globals.map Global.text) ++
    (if s.random then randomHelpers else "") ++
    structText "StageInput" s.layout.inputs ++
    structText "StageOutput" s.layout.outputs ++
    s.signatureText ++
    (if s.returnsOutput then "    var stage_output: StageOutput;\n" else "") ++
    s.prologue.text 1 ++
    s.body.text 1 ++
    (if s.returnsOutput then "    return stage_output;\n" else "") ++
    "\x7d\n"

end Shader

end WgslKernel
