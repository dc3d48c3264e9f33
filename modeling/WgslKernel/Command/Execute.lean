import WgslKernel.Command.Basic
import WgslKernel.Compile
import WgslKernel.Demo
import WgslKernel.Descriptor
import WgslKernel.Diagnostic.Report

/-!
# Running commands

What a command prints and which file it writes.  Files are read and written by the caller: the
contents of the configuration file come in as a value, and the file to be written goes out as one.
-/

namespace WgslKernel

/-- What a run of the program leaves behind. -/
structure Outcome where
  exitCode : Nat := 0
  stdout : String := ""
  stderr : String := ""
  deriving DecidableEq, Repr

namespace Outcome

/-- A run that failed with a message. -/
def failure (message : String) : Outcome := { exitCode := 1, stderr := message }

end Outcome

/-- A file to be written, and what to say then. -/
structure WriteRequest where
  path : String
  contents : String
  onSuccess : Outcome
  deriving DecidableEq, Repr

namespace WriteRequest

/-- The outcome once the file has been written, or could not be. -/
def outcome (w : WriteRequest) : Except FileError Unit → Outcome
  | .ok () => w.onSuccess
  | .error e => .failure s!"error: cannot write '{w.path}': {e.message}\n"

end WriteRequest

/-- How far a command gets by itself. -/
inductive Progress where
  | finished (outcome : Outcome)
  | writing (request : WriteRequest)
  deriving DecidableEq, Repr

namespace Command

/-! ## Failures -/

/-- There is no demo of this name. -/
def unknownDemo (name : String) : Outcome :=
  let names := String.intercalate ", " (Demo.all.map Demo.name)
  .failure s!"error: unknown demo '{name}'\navailable: {names}\n"

/-- A diagnostic that has no source text to point into. -/
def report (d : Diagnostic) : String :=
  String.join <|
    s!"error: {d.message}\n" ::
      (d.notes.map fun note => s!"  note: {note}\n") ++
      (match d.help with | some help => [s!"  help: {help}\n"] | none => [])

/-- The demonstration of the given name. -/
def findDemo (name : String) : Except Outcome Demo :=
  match Demo.find? name with
  | some d => .ok d
  | none => .error (unknownDemo name)

/-- The configuration in the named file, or the default one. -/
def loadConfig (path : Option String) (read : String → Except FileError ByteArray) :
    Except Outcome Config :=
  match path with
  | none => .ok {}
  | some path =>
    match Config.load path (read path) with
    | .ok config => .ok config
    | .error d => .error (.failure (report d))

/-- A broken contract ends the program. -/
def aborted (f : Fault) : Outcome := { exitCode := 101, stderr := s!"{f.message}\n" }

/-- The module that a demo builds. -/
def demoModule (d : Demo) : Except Outcome Module :=
  match d.module with
  | .ok m => .ok m
  | .error f => .error (aborted f)

/-- Compile a demonstration; an error is drawn into its listing. -/
def compileDemo (d : Demo) (config : Config) : Except Outcome Kernel := do
  let m ← demoModule d
  match compile m d.signature config with
  | .ok kernel => .ok kernel
  | .error (.fault f) => .error (aborted f)
  | .error (.error e) =>
    let listing := Listing.ofModule m
    .error (.failure
      (Report.render (.ofError e listing) s!"{d.name}.ir" listing.text))

/-! ## Commands -/

/-- The demonstrations, one per line, their names padded to the longest. -/
def listText : String :=
  let width := (Demo.all.map fun d => d.name.length).foldl max 0
  String.join <| Demo.all.map fun d =>
    let padding := String.ofList (List.replicate (width - d.name.length) ' ')
    s!"  {d.name}{padding}  {d.description}\n"

/-- The shaders of a kernel, each under a comment line. -/
def shaderText (k : Kernel) : String :=
  String.join <| k.tasks.zipIdx.map fun (t, i) =>
    s!"// task {i}: {t.kind.name} {t.shortHash}\n{t.code}\n"

/-- Generate a demonstration's shaders, as text or as descriptors. -/
def emitDemo (demo : String) (json : Bool) (output config : Option String)
    (read : String → Except FileError ByteArray) : Except Outcome Progress := do
  let d ← findDemo demo
  let config ← loadConfig config read
  let kernel ← compileDemo d config
  let text := if json then kernel.toJson.pretty ++ "\n" else shaderText kernel
  match output with
  | none => .ok (.finished { stdout := text })
  | some path =>
    let message := s!"Wrote {kernel.tasks.length} task(s) to {path}\n"
    .ok (.writing ⟨path, text, { stderr := message }⟩)

/-- Run a demonstration on a device, of which there is none. -/
def runDemo (demo : String) (config : Option String)
    (read : String → Except FileError ByteArray) : Except Outcome Progress := do
  let d ← findDemo demo
  let config ← loadConfig config read
  let _ ← compileDemo d config
  .error (.failure "error: no GPU adapter available\n")

/-- Run a command, given what its configuration file holds. -/
def execute (read : String → Except FileError ByteArray) (c : Command) : Progress :=
  let result : Except Outcome Progress :=
    match c with
    | .list => .ok (.finished { stdout := listText })
    | .listing demo => do
      let d ← findDemo demo
      let m ← demoModule d
      .ok (.finished { stdout := (Listing.ofModule m).text })
    | .emit demo json output config => emitDemo demo json output config read
    | .run demo config _ _ => runDemo demo config read
  match result with
  | .ok progress => progress
  | .error outcome => .finished outcome

end Command

end WgslKernel
