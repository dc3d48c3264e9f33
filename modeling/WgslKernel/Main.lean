import WgslKernel.Command.Execute

/-!
# The program

Reads the command line and the configuration file it names, runs the command, and writes what the
command leaves behind.
-/

namespace WgslKernel.Main

/-- An error of the system in the program's terms. -/
def fileError : IO.Error → FileError
  | .noFileOrDirectory .. => .notFound
  | .inappropriateType _ code _ =>
    if code = 20 then .system "Not a directory (os error 20)" else .isDirectory
  | e => .system (toString e)

/-- The bytes of a file. -/
def readFile (path : String) : IO (Except FileError ByteArray) := do
  try
    return .ok (← IO.FS.readBinFile path)
  catch e =>
    return .error (fileError e)

/-- Write a file. -/
def writeFile (path contents : String) : IO (Except FileError Unit) := do
  try
    IO.FS.writeFile path contents
    return .ok ()
  catch e =>
    return .error (fileError e)

/-- Run a command to its end. -/
def perform (c : Command) : IO Outcome := do
  let contents : Except FileError ByteArray ←
    match c.config? with
    | some path => readFile path
    | none => pure (.error .notFound)
  match c.execute (fun _ => contents) with
  | .finished outcome => return outcome
  | .writing request => return request.outcome (← writeFile request.path request.contents)

end WgslKernel.Main

open WgslKernel in
/-- Run the command that was asked for. -/
def main (args : List String) : IO UInt32 := do
  match Command.parse args with
  | none =>
    (← IO.getStderr).putStr "usage: list | ir DEMO | emit DEMO [OPTIONS] | run DEMO [OPTIONS]\n"
    return 2
  | some command =>
    let outcome ← Main.perform command
    (← IO.getStdout).putStr outcome.stdout
    (← IO.getStderr).putStr outcome.stderr
    return outcome.exitCode.toUInt32
