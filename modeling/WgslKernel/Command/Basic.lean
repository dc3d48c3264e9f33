import WgslKernel.Text.Numeral

/-!
# Command lines

The commands of the program and how they are written.  A command takes the name of a
demonstration, and options in any order before or after it; an option has its value behind an
equals sign or as the next argument.
-/

namespace WgslKernel

/-- What the program is asked to do. -/
inductive Command where
  | list
  | listing (demo : String)
  | emit (demo : String) (json : Bool) (output config : Option String)
  | run (demo : String) (config : Option String) (seed limit : Nat)
  deriving DecidableEq, Repr

namespace Command

/-- The configuration file that a command names. -/
def config? : Command → Option String
  | list | listing _ => none
  | emit _ _ _ config | run _ config _ _ => config

/-! ## Arguments -/

/-- An argument by the way it is written. -/
inductive Argument where
  | positional (text : String)
  /-- An option, with the value attached to it. -/
  | option (name : String) (value : Option String)
  /-- The mark after which every argument is positional. -/
  | endOfOptions
  deriving DecidableEq, Repr

/-- A short option can have its value right behind it. -/
def shortOption (letter : Char) : List Char → Argument
  | [] => .option (String.ofList ['-', letter]) none
  | '=' :: value => .option (String.ofList ['-', letter]) (some (String.ofList value))
  | value => .option (String.ofList ['-', letter]) (some (String.ofList value))

/-- A long option can have its value behind an equals sign. -/
def longOption (name : List Char) : Argument :=
  let value := name.dropWhile (· ≠ '=')
  let name := "--" ++ String.ofList (name.takeWhile (· ≠ '='))
  match value with
  | [] => .option name none
  | _ :: value => .option name (some (String.ofList value))

/-- What an argument is by its dashes. -/
def Argument.ofString (text : String) : Argument :=
  match text.toList with
  | ['-', '-'] => .endOfOptions
  | '-' :: '-' :: name => longOption name
  | ['-'] => .positional text
  | '-' :: letter :: rest => shortOption letter rest
  | _ => .positional text

/-- An option that a command knows, and whether it takes a value. -/
structure OptionSpec where
  names : List String
  takesValue : Bool
  deriving DecidableEq, Repr

/-- The arguments of a command: positional ones, and the values of options by their first name. -/
structure Arguments where
  positional : List String := []
  options : List (String × String) := []
  deriving DecidableEq, Repr

/-- Take apart arguments.  `none` is one that is not known or given twice, or lacks its value. -/
def collect (specs : List OptionSpec) (acc : Arguments) : List String → Option Arguments
  | [] => some acc
  | text :: rest =>
    match Argument.ofString text with
    | .endOfOptions => some { acc with positional := acc.positional ++ rest }
    | .positional text => collect specs { acc with positional := acc.positional ++ [text] } rest
    | .option name attached =>
      match specs.find? fun s => s.names.contains name with
      | none => none
      | some spec =>
        let key := spec.names.headD name
        if (acc.options.lookup key).isSome then none
        else
          match spec.takesValue, attached, rest with
          | false, none, rest =>
            collect specs { acc with options := acc.options ++ [(key, "")] } rest
          | false, some _, _ => none
          | true, some value, rest =>
            collect specs { acc with options := acc.options ++ [(key, value)] } rest
          | true, none, [] => none
          | true, none, value :: rest =>
            match Argument.ofString value with
            | .positional value =>
              collect specs { acc with options := acc.options ++ [(key, value)] } rest
            | _ => none

/-! ## Commands -/

/-- `--json`: print the descriptor. -/
def jsonOption : OptionSpec := ⟨["--json"], false⟩

/-- `--output`: write to a file. -/
def outputOption : OptionSpec := ⟨["--output", "-o"], true⟩

/-- `--config`: read settings from a file. -/
def configOption : OptionSpec := ⟨["--config"], true⟩

/-- `--seed`: the seed of the demo. -/
def seedOption : OptionSpec := ⟨["--seed"], true⟩

/-- `--limit`: how much is shown. -/
def limitOption : OptionSpec := ⟨["--limit"], true⟩

/-- The path given for an option, which cannot be empty. -/
def Arguments.path (a : Arguments) (key : String) : Option (Option String) :=
  match a.options.lookup key with
  | none => some none
  | some "" => none
  | some path => some (some path)

/-- A seed: any spelling of an integer that is a word, also of zero with a minus sign. -/
def seed? (cs : List Char) : Option Nat := do
  let n ← Text.signed? cs
  if 0 ≤ n then fitWord n.toNat else none

/-- A count, below `2 ^ 64` and without a minus sign. -/
def count? (cs : List Char) : Option Nat := do
  let n ← Text.unsigned? cs
  if n < 0x10000000000000000 then some n else none

/-- The number given for an option, or its default. -/
def Arguments.number (a : Arguments) (key : String) (read : List Char → Option Nat)
    (default : Nat) : Option Nat :=
  match a.options.lookup key with
  | none => some default
  | some text => read text.toList

/-- The one positional argument. -/
def Arguments.only : Arguments → Option String
  | { positional := [text], .. } => some text
  | _ => none

/-- Read a command line; `none` is a usage error. -/
def parse : List String → Option Command
  | "list" :: args => do
    let a ← collect [] {} args
    if a.positional = [] then some .list else none
  | "ir" :: args => do
    let a ← collect [] {} args
    let demo ← a.only
    some (.listing demo)
  | "emit" :: args => do
    let a ← collect [jsonOption, outputOption, configOption] {} args
    let demo ← a.only
    let output ← a.path "--output"
    let config ← a.path "--config"
    some (.emit demo (a.options.lookup "--json").isSome output config)
  | "run" :: args => do
    let a ← collect [configOption, seedOption, limitOption] {} args
    let demo ← a.only
    let config ← a.path "--config"
    let seed ← a.number "--seed" seed? 0
    let limit ← a.number "--limit" count? 16
    some (.run demo config seed limit)
  | _ => none

end Command

end WgslKernel
