import WgslKernel.Offload
import WgslKernel.Resource

/-!
# Task descriptors

What a runtime needs to dispatch a generated shader: its text and digest, the resources it binds,
and the shape of the dispatch.  A compiled kernel is the list of its tasks in dispatch order.
-/

namespace WgslKernel

/-- Byte sizes of a kernel's argument and return blocks. -/
structure Signature where
  argBytes : Nat := 0
  retBytes : Nat := 0
  deriving DecidableEq, Repr

/-- Where the iteration count of a parallel loop comes from. -/
inductive RangeHint where
  | const (count : Nat)
  /-- Read at dispatch time from the global-temporary buffer. -/
  | dynamic (offset : Nat)
  | fieldElements (field count : Nat)
  deriving DecidableEq, Repr

/-- How a task is started. -/
inductive Dispatch where
  | compute (workgroupSize numWorkgroups : Nat) (range : Option RangeHint)
  | vertex (layout : StageLayout)
  | fragment (layout : StageLayout)
  deriving DecidableEq, Repr

/-- The stage interface of a graphics dispatch. -/
def Dispatch.layout? : Dispatch → Option StageLayout
  | compute .. => none
  | vertex layout | fragment layout => some layout

/-- One generated shader and everything needed to run it. -/
structure Task where
  kind : OffloadKind
  entryPoint : String
  code : String
  /-- Digest of `code`, in hexadecimal. -/
  codeHash : String
  /-- Resources of the shader, in declaration order. -/
  bindings : List Binding
  signature : Signature
  dispatch : Dispatch
  deriving DecidableEq, Repr

namespace Task

/-- The first digits of the digest, for display. -/
def shortHash (t : Task) : String := String.ofList (t.codeHash.toList.take 16)

/-- The outputs of a graphics task. -/
def outputs (t : Task) : List StageMember :=
  match t.dispatch.layout? with
  | some layout => layout.outputs
  | none => []

end Task

/-- A compiled module: its tasks in dispatch order. -/
structure Kernel where
  tasks : List Task
  signature : Signature
  deriving DecidableEq, Repr

end WgslKernel
