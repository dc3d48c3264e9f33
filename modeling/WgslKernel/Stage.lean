import WgslKernel.Primitive

/-!
# Pipeline stages and their interfaces

A shader runs in one of three stages.  The graphics stages read and write members of a stage
interface, each of them wired to a numbered location or to a built-in value.
-/

namespace WgslKernel

/-- The stages that shaders run in. -/
inductive Stage where
  | compute
  | vertex
  | fragment
  deriving DecidableEq, Repr

namespace Stage

/-- How a stage is named. -/
def name : Stage → String
  | compute => "compute"
  | vertex => "vertex"
  | fragment => "fragment"

/-- The stage is part of a pipeline. -/
def isGraphics : Stage → Bool
  | compute => false
  | vertex | fragment => true

end Stage

/-! ## Stage members -/

/-- A member of a stage's input or output structure. -/
inductive MemberName where
  | vertexAttribute (location : Nat)
  | varying (location : Nat)
  | color (location : Nat)
  | vertexIndex
  | instanceIndex
  | fragCoord
  | position
  | fragDepth
  deriving DecidableEq, Repr

/-- How a member is written. -/
def MemberName.text : MemberName → String
  | vertexAttribute n => s!"attribute_{n}"
  | varying n => s!"varying_{n}"
  | color n => s!"color_{n}"
  | vertexIndex => "vertex_index"
  | instanceIndex => "instance_index"
  | fragCoord => "frag_coord"
  | position => "position"
  | fragDepth => "frag_depth"

/-- Values the pipeline itself supplies or takes. -/
inductive PipelineValue where
  | position
  | vertexIndex
  | instanceIndex
  | fragDepth
  deriving DecidableEq, Repr

/-- How a pipeline value is written. -/
def PipelineValue.name : PipelineValue → String
  | position => "position"
  | vertexIndex => "vertex_index"
  | instanceIndex => "instance_index"
  | fragDepth => "frag_depth"

/-- How a stage member is wired. -/
inductive MemberSlot where
  /-- A numbered location; `flat` members are not interpolated. -/
  | location (location : Nat) (flat : Bool)
  | builtin (value : PipelineValue)
  deriving DecidableEq, Repr

/-- A member of a stage interface. -/
structure StageMember where
  name : MemberName
  type : ShaderType
  slot : MemberSlot
  deriving DecidableEq, Repr

namespace StageMember

/-- A member at a location.  Integers cannot be interpolated, so they are flat. -/
def located (name : MemberName) (type : ShaderType) (location : Nat) (prim : Prim) :
    StageMember :=
  ⟨name, type, .location location prim.isInteger⟩

/-- The number of the vertex. -/
def vertexIndex : StageMember := ⟨.vertexIndex, ⟨.u32, 1⟩, .builtin .vertexIndex⟩

/-- The number of the instance. -/
def instanceIndex : StageMember := ⟨.instanceIndex, ⟨.u32, 1⟩, .builtin .instanceIndex⟩

/-- Where the fragment is. -/
def fragCoord : StageMember := ⟨.fragCoord, ⟨.f32, 4⟩, .builtin .position⟩

/-- Where the vertex is. -/
def position : StageMember := ⟨.position, ⟨.f32, 4⟩, .builtin .position⟩

/-- The depth of the fragment. -/
def fragDepth : StageMember := ⟨.fragDepth, ⟨.f32, 1⟩, .builtin .fragDepth⟩

/-- Declaration inside a structure body. -/
def declaration (m : StageMember) : String :=
  let wiring :=
    match m.slot with
    | .location n true => s!"@location({n}) @interpolate(flat)"
    | .location n false => s!"@location({n})"
    | .builtin value => s!"@builtin({value.name})"
  s!"{wiring} {m.name.text}: {m.type.name}"

end StageMember

/-- Inputs and outputs of a vertex or fragment shader. -/
structure StageLayout where
  inputs : List StageMember := []
  outputs : List StageMember := []
  deriving DecidableEq, Repr

end WgslKernel
