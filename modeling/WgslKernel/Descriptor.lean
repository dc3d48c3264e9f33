import WgslKernel.Json
import WgslKernel.Task

/-!
# Task descriptors as JSON

The form in which a compiled kernel is handed to a runtime.  An alternative with contents is an
object with one member named for the alternative, and a missing value is `null`.
-/

namespace WgslKernel

/-- A binding in a descriptor. -/
def Binding.toJson (b : Binding) : Json :=
  .obj
    [("info",
        .obj
          [("resource_type", .str b.resource.kind.tag),
            ("resource_id", match b.resource.id with | some id => .nat id | none => .null)]),
      ("binding", .nat b.slot)]

/-- A range hint, tagged by its alternative. -/
def RangeHint.toJson : RangeHint → Json
  | .const n => .obj [("const", .nat n)]
  | .dynamic offset => .obj [("dynamic", .obj [("offset", .nat offset)])]
  | .fieldElements field count =>
    .obj [("field_elements", .obj [("field", .nat field), ("count", .nat count)])]

/-- The place of a member, tagged by its alternative. -/
def MemberSlot.toJson : MemberSlot → Json
  | .location n flat =>
    .obj [("location", .obj [("location", .nat n), ("flat", .bool flat)])]
  | .builtin value => .obj [("builtin", .str value.name)]

/-- A member of a stage interface. -/
def StageMember.toJson (m : StageMember) : Json :=
  .obj
    [("name", .str m.name.text), ("type_name", .str m.type.name), ("slot", m.slot.toJson)]

/-- A stage interface. -/
def StageLayout.toJson (l : StageLayout) : Json :=
  .obj
    [("inputs", .arr (l.inputs.map StageMember.toJson)),
      ("outputs", .arr (l.outputs.map StageMember.toJson))]

/-- A dispatch, tagged by its stage. -/
def Dispatch.toJson : Dispatch → Json
  | .compute workgroupSize numWorkgroups range =>
    .obj
      [("compute",
        .obj
          [("workgroup_size", .nat workgroupSize),
            ("num_workgroups", .nat numWorkgroups),
            ("range", match range with | some hint => hint.toJson | none => .null)])]
  | .vertex layout => .obj [("vertex", layout.toJson)]
  | .fragment layout => .obj [("fragment", layout.toJson)]

/-- A task. -/
def Task.toJson (t : Task) : Json :=
  .obj
    [("kind", .str t.kind.name),
      ("entry_point", .str t.entryPoint),
      ("code", .str t.code),
      ("code_hash", .str t.codeHash),
      ("bindings", .arr (t.bindings.map Binding.toJson)),
      ("arg_bytes", .nat t.signature.argBytes),
      ("ret_bytes", .nat t.signature.retBytes),
      ("dispatch", t.dispatch.toJson)]

/-- The descriptor of a kernel. -/
def Kernel.toJson (k : Kernel) : Json :=
  .obj
    [("tasks", .arr (k.tasks.map Task.toJson)),
      ("arg_bytes", .nat k.signature.argBytes),
      ("ret_bytes", .nat k.signature.retBytes)]

end WgslKernel
