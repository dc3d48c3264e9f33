import WgslKernel.Codegen.Error
import WgslKernel.Config
import WgslKernel.Listing

/-!
# Diagnostics

An error prepared for a reader: a message, the place in a listing it is about, notes, and advice.
-/

namespace WgslKernel

/-- What is told about a failure. -/
structure Diagnostic where
  message : String
  span : Span := {}
  notes : List String := []
  help : Option String := none
  deriving DecidableEq, Repr

/-! ## Errors of a kernel -/

/-- Background to an error of a kernel. -/
def CodegenError.notes : CodegenError → List String
  | .typeMismatch .. => ["stores and stage outputs never convert implicitly"]
  | .readOnlyResource _ _ stage =>
    if stage.isGraphics then ["vertex and fragment stages bind buffers read-only"] else []
  | .noHandler _ kind stage => [s!"a {stage.name} stage has no lowering for `{kind}`"]
  | .fieldOutOfRange .. => ["root buffers are indexed with i32 words"]
  | .crossOffloadReference .. => ["every top-level parallel loop is dispatched on its own"]
  | .unsupportedType .. | .undeclaredResource .. | .misalignedTemporary .. => []

/-- Advice on an error of a kernel. -/
def CodegenError.help? : CodegenError → Option String
  | .unsupportedType .. =>
    some "only i32 and f32 values (and vectors of them) can be generated"
  | .readOnlyResource _ _ stage =>
    if stage.isGraphics then some "move the write into a compute loop"
    else some "declare the field writable"
  | .undeclaredResource .. => some "enlarge the kernel signature or memory.global_tmps_bytes"
  | .misalignedTemporary .. => some "global temporary offsets are multiples of 4 bytes"
  | .fieldOutOfRange .. => some "split the field across several root buffers"
  | .crossOffloadReference .. =>
    some "pass the value through a global temporary, or compute it inside the loop"
  | .typeMismatch .. | .noHandler .. => none

/-- The diagnostic of an error, pointing at the statement it blames. -/
def Diagnostic.ofError (e : CodegenError) (listing : Listing) : Diagnostic :=
  { message := e.message, span := listing.span e.stmt, notes := e.notes, help := e.help? }

/-! ## Errors of a configuration file -/

/-- The diagnostic of a refused configuration file. -/
def Diagnostic.ofConfigError (path : String) (e : ConfigError) : Diagnostic :=
  { message := s!"{path}: {e.message}", help := e.help? }

/-- Why a file cannot be read or written. -/
inductive FileError where
  | notFound
  | isDirectory
  /-- The bytes of the file are not UTF-8. -/
  | notText
  /-- Any other reason, in the words of the system. -/
  | system (reason : String)
  deriving DecidableEq, Repr

/-- The text that a file system gives. -/
def FileError.message : FileError → String
  | notFound => "No such file or directory (os error 2)"
  | isDirectory => "Is a directory (os error 21)"
  | notText => "stream did not contain valid UTF-8"
  | system reason => reason

/-- Bytes as text. -/
def decodeText (bytes : ByteArray) : Except FileError String :=
  match String.fromUTF8? bytes with
  | some text => .ok text
  | none => .error .notText

/-- Read the configuration file of the given name and contents. -/
def Config.load (path : String) (contents : Except FileError ByteArray) :
    Except Diagnostic Config :=
  match contents >>= decodeText with
  | .error e =>
    .error { message := s!"cannot read codegen config '{path}': {e.message}" }
  | .ok text =>
    match Config.parse text with
    | .ok config => .ok config
    | .error e => .error (.ofConfigError path e)

end WgslKernel
