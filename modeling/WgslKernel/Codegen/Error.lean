import WgslKernel.Offload
import WgslKernel.Resource

/-!
# Reasons for refusing a kernel

Every error names the statement it is about.  The text of an error is fixed by its cause.
-/

namespace WgslKernel

/-- Values or declarations whose types do not fit together. -/
inductive Mismatch where
  | notScalar (operand : StmtId) (found : ValueType)
  | rangeBound (found : ValueType)
  | dynamicBound
  | operandShapes (op : BinaryOp) (left right : ValueType)
  | component (index : Nat) (found : ValueType)
  | needsIntegers (op : String) (found : ValueType)
  | needsScalars (op : String) (found : ValueType)
  | fieldIndex (index : StmtId) (found : ValueType)
  | notGlobalPointer (ptr : StmtId)
  | notTemporary (ptr : StmtId)
  | notAtomicTarget (ptr : StmtId)
  | storeType (found expected : ValueType)
  | memberType (name : MemberName) (first second : ShaderType)
  | varyingType (location : Nat) (wanted written : ShaderType)
  | depthVolume (texture : Nat)
  | depthStore (texture : Nat)
  | cubeStore (texture : Nat)
  | cubeLoad (texture : Nat)
  deriving DecidableEq, Repr

/-- How a mismatch is reported. -/
def Mismatch.message : Mismatch → String
  | notScalar operand found => s!"{stmtRef operand} must be a scalar, found {found.display}"
  | rangeBound found => s!"range bound must be i32, found {found.display}"
  | dynamicBound => "a dynamic range bound must be an i32 global temporary"
  | operandShapes op left right =>
    s!"{op.name} operands have shapes {left.display} and {right.display}"
  | component index found => s!"component {index} of a {found.display} value"
  | needsIntegers op found => s!"{op} needs integer operands, found {found.display}"
  | needsScalars op found => s!"{op} needs scalar operands, found {found.display}"
  | fieldIndex index found => s!"field index {stmtRef index} must be i32, found {found.display}"
  | notGlobalPointer ptr => s!"{stmtRef ptr} is not a global pointer"
  | notTemporary ptr => s!"{stmtRef ptr} is not a global temporary"
  | notAtomicTarget ptr => s!"{stmtRef ptr} cannot be the target of an atomic"
  | storeType found expected =>
    s!"cannot store {found.display} into a {expected.display} slot"
  | memberType name first second =>
    s!"stage member `{name.text}` used as {first.name} and {second.name}"
  | varyingType location wanted written =>
    s!"fragment input at location {location} is {wanted.name}, " ++
      s!"but the vertex stage writes {written.name}"
  | depthVolume texture => s!"depth texture {texture} cannot be 3d"
  | depthStore texture => s!"texture {texture} has a depth format and cannot be stored to"
  | cubeStore texture => s!"cube texture {texture} cannot be stored to"
  | cubeLoad texture => s!"cube texture {texture} cannot be loaded by texel"

/-- Something a kernel uses that is not there. -/
inductive Shortfall where
  | temporary (offset bytes : Nat)
  | argument (arg bytes : Nat)
  | returns (count bytes : Nat)
  | varying (location : Nat)
  deriving DecidableEq, Repr

/-- How a shortfall is reported. -/
def Shortfall.message : Shortfall → String
  | temporary offset bytes =>
    s!"global temporary at byte {offset} lies outside the {bytes}-byte buffer"
  | argument arg bytes => s!"argument {arg} is outside the {bytes}-byte argument block"
  | returns count bytes => s!"{count} return value(s) do not fit the {bytes}-byte return block"
  | varying location => s!"no vertex stage output at location {location}"

/-- What a kernel is not allowed to write. -/
inductive Protected where
  | resource (r : Resource)
  | field (id : Nat)
  deriving DecidableEq, Repr

/-- Textures are named by their number, buffers by their shader identifier. -/
def Protected.name : Protected → String
  | resource r =>
    match r.kind with
    | .texture | .storageTexture => s!"texture {r.id.getD 0}"
    | _ => r.name
  | field id => s!"field {id}"

/-- Failure to generate an offload. -/
inductive CodegenError where
  | unsupportedType (stmt : StmtId) (cause : TypeError)
  | typeMismatch (stmt : StmtId) (cause : Mismatch)
  | readOnlyResource (stmt : StmtId) (target : Protected) (stage : Stage)
  | undeclaredResource (stmt : StmtId) (cause : Shortfall)
  | noHandler (stmt : StmtId) (kind : String) (stage : Stage)
  | misalignedTemporary (stmt : StmtId) (offset : Nat)
  | fieldOutOfRange (stmt : StmtId) (field : Nat)
  | crossOffloadReference (stmt operand : StmtId)
  deriving DecidableEq, Repr

namespace CodegenError

/-- Statement the error is about. -/
def stmt : CodegenError → StmtId
  | unsupportedType s _ | typeMismatch s _ | readOnlyResource s _ _ | undeclaredResource s _
  | noHandler s _ _ | misalignedTemporary s _ | fieldOutOfRange s _
  | crossOffloadReference s _ => s

/-- How an error is reported. -/
def message : CodegenError → String
  | unsupportedType s cause => s!"{stmtRef s}: {cause.message}"
  | typeMismatch s cause => s!"{stmtRef s}: {cause.message}"
  | readOnlyResource s target stage =>
    s!"{stmtRef s}: `{target.name}` is read-only in a {stage.name} stage"
  | undeclaredResource s cause => s!"{stmtRef s}: {cause.message}"
  | noHandler s kind stage =>
    s!"{stmtRef s}: `{kind}` cannot be generated in a {stage.name} stage"
  | misalignedTemporary s offset =>
    s!"{stmtRef s}: global temporary offset {offset} is not 4-byte aligned"
  | fieldOutOfRange s field =>
    s!"{stmtRef s}: field {field} does not fit i32 word addressing"
  | crossOffloadReference s operand =>
    s!"{stmtRef s} reads {stmtRef operand}, which is computed by another offload"

end CodegenError

/-- Why a generation stopped: a violated contract, or an error of the kernel. -/
inductive Halt where
  | fault (fault : Fault)
  | error (error : CodegenError)
  deriving DecidableEq, Repr

/-- A computation that can break a contract, as one that can halt. -/
def orFault {α : Type} : Except Fault α → Except Halt α
  | .ok a => .ok a
  | .error f => .error (.fault f)

/-- A computation that can refuse the kernel, as one that can halt. -/
def orError {α : Type} : Except CodegenError α → Except Halt α
  | .ok a => .ok a
  | .error e => .error (.error e)

/-- Stop with an error of the kernel. -/
def refuse {α : Type} (e : CodegenError) : Except Halt α := .error (.error e)

/-- Stop because types do not fit together. -/
def mismatch {α : Type} (stmt : StmtId) (cause : Mismatch) : Except Halt α :=
  refuse (.typeMismatch stmt cause)

end WgslKernel
