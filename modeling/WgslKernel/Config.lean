import WgslKernel.Fault
import WgslKernel.Text.Blank
import WgslKernel.Text.Numeral
import WgslKernel.Text.Split

/-!
# Configuration

The knobs of code generation, their defaults, and the configuration file that changes them.  A
file is a list of sections (`[compute]`, `[memory]`) with `key = value` lines; unknown sections
and keys are skipped, the last value of a key wins, and a file whose values do not fit together
is refused (`Config.check`).
-/

namespace WgslKernel

/-- What a compilation can be told. -/
structure Config where
  /-- Invocations per workgroup of a parallel loop. -/
  workgroupSize : Nat := 128
  /-- Upper bound on the workgroups of one dispatch. -/
  maxWorkgroups : Nat := 65535
  /-- Workgroups dispatched when the loop bound is only known on the device. -/
  dynamicWorkgroups : Nat := 512
  /-- Size of the global-temporary buffer in bytes. -/
  globalTmpsBytes : Nat := 65536
  /-- Byte offset of the random seed inside the global-temporary buffer. -/
  randSeedOffset : Nat := 4096
  deriving DecidableEq, Repr

namespace Config

/-- Quotient rounded up. -/
def ceilDiv (n d : Nat) : Nat := if n % d = 0 then n / d else n / d + 1

/-- Workgroups needed to cover `n` iterations: at least one, at most the configured maximum. -/
def workgroupsFor (c : Config) (n : Nat) : Except Fault Nat :=
  if c.workgroupSize = 0 then .error .divisionByZero
  else if c.maxWorkgroups = 0 then .error (.emptyClamp 1 c.maxWorkgroups)
  else .ok (min (max 1 (ceilDiv n c.workgroupSize)) c.maxWorkgroups)

/-- Word index of the random seed. -/
def randSeedWord (c : Config) : Nat := c.randSeedOffset / 4

/-- Words of the global-temporary buffer. -/
def globalTmpsWords (c : Config) : Nat := c.globalTmpsBytes / 4

end Config

/-! ## Settings of a configuration file -/

/-- The names of the settings. -/
inductive Setting where
  | workgroupSize
  | maxWorkgroups
  | dynamicWorkgroups
  | globalTmpsBytes
  | randSeedOffset
  deriving DecidableEq, Repr

namespace Setting

/-- Section a setting is written in. -/
def sectionName : Setting → String
  | workgroupSize | maxWorkgroups | dynamicWorkgroups => "compute"
  | globalTmpsBytes | randSeedOffset => "memory"

/-- The key of a setting in its section. -/
def key : Setting → String
  | workgroupSize => "workgroup_size"
  | maxWorkgroups => "max_workgroups"
  | dynamicWorkgroups => "dynamic_workgroups"
  | globalTmpsBytes => "global_tmps_bytes"
  | randSeedOffset => "rand_seed_offset"

/-- Full name of a setting: `compute.workgroup_size`. -/
def path (s : Setting) : String := s!"{s.sectionName}.{s.key}"

/-- Every setting, in the order of the configuration. -/
def all : List Setting :=
  [workgroupSize, maxWorkgroups, dynamicWorkgroups, globalTmpsBytes, randSeedOffset]

/-- The setting written as `key` in the section of the given name. -/
def find? (inSection key : String) : Option Setting :=
  all.find? fun s => s.sectionName == inSection && s.key == key

/-- The value of a setting. -/
def get (c : Config) : Setting → Nat
  | workgroupSize => c.workgroupSize
  | maxWorkgroups => c.maxWorkgroups
  | dynamicWorkgroups => c.dynamicWorkgroups
  | globalTmpsBytes => c.globalTmpsBytes
  | randSeedOffset => c.randSeedOffset

/-- A configuration with one setting changed. -/
def set (c : Config) (value : Nat) : Setting → Config
  | workgroupSize => { c with workgroupSize := value }
  | maxWorkgroups => { c with maxWorkgroups := value }
  | dynamicWorkgroups => { c with dynamicWorkgroups := value }
  | globalTmpsBytes => { c with globalTmpsBytes := value }
  | randSeedOffset => { c with randSeedOffset := value }

end Setting

/-- Why a configuration file is refused. -/
inductive ConfigError where
  | invalidValue (setting : Setting) (value : String)
  | workgroupSize (size : Nat)
  | noWorkgroups
  | dynamicWorkgroups
  | misaligned
  | seedOutside (offset bytes : Nat)
  deriving DecidableEq, Repr

namespace ConfigError

/-- How an error is reported. -/
def message : ConfigError → String
  | invalidValue setting value => s!"invalid {setting.path}: {value}"
  | workgroupSize size => s!"compute.workgroup_size must be in 1..=256, got {size}"
  | noWorkgroups => "compute.max_workgroups must be > 0"
  | dynamicWorkgroups => "compute.dynamic_workgroups must be in 1..=max_workgroups"
  | misaligned => "memory sizes and offsets must be multiples of 4"
  | seedOutside offset bytes =>
    s!"memory.rand_seed_offset {offset} lies outside the {bytes}-byte global temporary buffer"

/-- A hint at what to change. -/
def help? : ConfigError → Option String
  | seedOutside .. => some "raise memory.global_tmps_bytes or lower the seed offset"
  | _ => none

end ConfigError

/-! ## Reading a file -/

/-- What one line of a configuration file says. -/
inductive ConfigLine where
  /-- Blank lines, comments, and lines that are neither a header nor an assignment. -/
  | skip
  | header (name : String)
  | assign (key value : String)
  deriving DecidableEq, Repr

namespace ConfigLine

/-- The text between the first and the last character of a bracketed line. -/
def bracketed? : List Char → Option (List Char)
  | '[' :: rest => if rest.getLast? = some ']' then some rest.dropLast else none
  | _ => none

/-- A line is looked at without the white space around it. -/
def ofTrimmed (line : List Char) : ConfigLine :=
  match line with
  | [] => .skip
  | '#' :: _ => .skip
  | _ =>
    match bracketed? line with
    | some inner => .header (String.ofList (Text.trim inner))
    | none =>
      match Text.cut? '=' line with
      | some (key, value) =>
        .assign (String.ofList (Text.trim key)) (String.ofList (Text.trim value))
      | none => .skip

/-- What a line says. -/
def ofLine (line : List Char) : ConfigLine := ofTrimmed (Text.trim line)

end ConfigLine

namespace Config

/-- A configuration being read, and the section the reader is in. -/
structure Reading where
  config : Config := {}
  inSection : String := ""
  deriving DecidableEq, Repr

/-- Take in one line. -/
def Reading.step (r : Reading) : ConfigLine → Except ConfigError Reading
  | .skip => .ok r
  | .header name => .ok { r with inSection := name }
  | .assign key value =>
    match Setting.find? r.inSection key with
    | none => .ok r
    | some setting =>
      match Text.word? value.toList with
      | some n => .ok { r with config := setting.set r.config n }
      | none => .error (.invalidValue setting value)

/-- The values have to be usable together. -/
def check (c : Config) : Except ConfigError Unit :=
  if c.workgroupSize = 0 ∨ 256 < c.workgroupSize then .error (.workgroupSize c.workgroupSize)
  else if c.maxWorkgroups = 0 then .error .noWorkgroups
  else if c.dynamicWorkgroups = 0 ∨ c.maxWorkgroups < c.dynamicWorkgroups then
    .error .dynamicWorkgroups
  else if c.globalTmpsBytes % 4 ≠ 0 ∨ c.randSeedOffset % 4 ≠ 0 then .error .misaligned
  else if c.globalTmpsBytes < c.randSeedOffset + 4 then
    .error (.seedOutside c.randSeedOffset c.globalTmpsBytes)
  else .ok ()

/-- Read the text of a configuration file. -/
def parse (text : String) : Except ConfigError Config := do
  let r ← ((Text.lines text.toList).map ConfigLine.ofLine).foldlM Reading.step {}
  r.config.check
  .ok r.config

end Config

end WgslKernel
