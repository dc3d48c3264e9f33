import WgslKernel.Module
import WgslKernel.Decimal.Binary32

/-!
# Listings

The textual form of a module: one line per statement, the contents of a block indented by two
spaces and closed by a brace.  A listing is a list of lines (`Listing.Line`), and both its text
and the byte range of each statement's header are read off that list, so a diagnostic can point
at the statement it blames.
-/

namespace WgslKernel

/-- A byte range of a text.  Positions stand for 32-bit words: the two agree below `2 ^ 32` bytes.
-/
structure Span where
  start : Nat := 0
  stop : Nat := 0
  deriving DecidableEq, Repr

namespace Span

/-- The characters of `cs` that begin in the range, when `cs` begins at byte `pos`. -/
def sliceFrom (s : Span) : Nat → List Char → List Char
  | _, [] => []
  | pos, c :: cs =>
    let rest := s.sliceFrom (pos + c.utf8Size) cs
    if s.start ≤ pos ∧ pos < s.stop then c :: rest else rest

/-- The part of a text covered by the range. -/
def slice (s : Span) (text : String) : String := String.ofList (s.sliceFrom 0 text.toList)

end Span

/-! ## Headers -/

/-- A list of statements: `[%1, %2]`. -/
def stmtRefs (ids : List StmtId) : String :=
  "[" ++ String.intercalate ", " (ids.map stmtRef) ++ "]"

/-- How a constant is shown. -/
def Const.describe : Const → String
  | .i32 v => s!"const i32 {v.toInt}"
  | .f32 bits => s!"const f32 {Binary32.text bits}"

/-- How the bound of a loop is shown. -/
def RangeBound.describe : RangeBound → String
  | .value v => stmtRef v
  | .field f => s!"field{f.id}"

/-- How an output is shown. -/
def BuiltinOutput.describe : BuiltinOutput → String
  | .position q => s!"position {stmtRefs q.toList}"
  | .fragDepth v => s!"frag_depth {stmtRefs [v]}"
  | .color location q => s!"color@{location} {stmtRefs q.toList}"

/-- Right-hand side of a statement's header. -/
def Kind.describe : Kind → String
  | .const c => c.describe
  | .loopIndex loop => s!"loop_index {stmtRef loop}"
  | .argLoad ty arg => s!"arg_load {ty.name} #{arg}"
  | .rand ty => s!"rand {ty.name}"
  | .unary op x => s!"{op.name} {stmtRef x}"
  | .binary op x y => s!"{op.name} {stmtRef x} {stmtRef y}"
  | .branch cond _ _ => s!"if {stmtRef cond}"
  | .whileTrue _ => "while"
  | .exitLoop => "break"
  | .nextIteration => "continue"
  | .rangeFor bound serial _ =>
    s!"range_for {bound.describe}" ++ (if serial then " serial" else "")
  | .vertexFor _ => "vertex_for"
  | .fragmentFor _ => "fragment_for"
  | .alloca ty => s!"alloca {ty.name}"
  | .localLoad ptr => s!"local_load {stmtRef ptr}"
  | .localStore ptr v => s!"local_store {stmtRef ptr} {stmtRef v}"
  | .globalPtr field indices offset =>
    s!"global_ptr field{field.id}{stmtRefs indices} +{offset}"
  | .globalLoad ptr => s!"global_load {stmtRef ptr}"
  | .globalStore ptr v => s!"global_store {stmtRef ptr} {stmtRef v}"
  | .temporary ty offset => s!"global_temporary {ty.name} @{offset}"
  | .temporaryLoad ptr => s!"global_temporary_load {stmtRef ptr}"
  | .temporaryStore ptr v => s!"global_temporary_store {stmtRef ptr} {stmtRef v}"
  | .atomic op dest v => s!"atomic_{op.name} {stmtRef dest} {stmtRef v}"
  | .atomicLoad ptr => s!"atomic_load {stmtRef ptr}"
  | .atomicStore ptr v => s!"atomic_store {stmtRef ptr} {stmtRef v}"
  | .vertexInput ty location => s!"vertex_input {ty.name} @{location}"
  | .vertexOutput v location => s!"vertex_output {stmtRef v} @{location}"
  | .fragmentInput ty location => s!"fragment_input {ty.name} @{location}"
  | .builtinInput input => s!"builtin_input {input.name}"
  | .builtinOutput output => s!"builtin_output {output.describe}"
  | .derivative axis x => s!"{axis.derivative} {stmtRef x}"
  | .discard => "discard"
  | .texture access tex coords =>
    s!"{access.name} texture{tex.id} {stmtRefs coords}" ++
      (if access.operands = [] then "" else " " ++ stmtRefs access.operands)
  | .extract composite index => s!"extract {stmtRef composite}.{index}"
  | .ret values => s!"return {stmtRefs values}"

/-- The header of a statement: `%3 = add %1 %2`, with an opening brace if it owns blocks. -/
def Stmt.header (s : Stmt) : String :=
  s!"{stmtRef s.id} = {s.kind.describe}" ++ (if s.kind.childBlocks = [] then "" else " \x7b")

/-! ## Lines -/

namespace Listing

/-- One line of a listing, at a nesting depth. -/
inductive Line where
  | header (depth : Nat) (stmt : Stmt)
  | otherwise (depth : Nat)
  | close (depth : Nat)
  deriving DecidableEq, Repr

namespace Line

/-- How deep a line is nested. -/
def depth : Line → Nat
  | header d _ | otherwise d | close d => d

/-- The line without indentation and line end. -/
def content : Line → String
  | header _ s => s.header
  | otherwise _ => "\x7d else \x7b"
  | close _ => "\x7d"

/-- Two blanks for each level. -/
def indent (l : Line) : String := String.ofList (List.replicate (2 * l.depth) ' ')

/-- The line with its indentation and its end. -/
def text (l : Line) : String := l.indent ++ l.content ++ "\n"

/-- Whether this is the header of statement `id`. -/
def isHeaderOf (id : StmtId) : Line → Bool
  | header _ s => s.id == id
  | _ => false

end Line

/-- The lines of an outline.  The else part of a branch appears only if it holds statements. -/
def linesOf (depth : Nat) : Outline → List Line
  | .nil => []
  | .cons s first second rest =>
    let tail := linesOf depth rest
    let body :=
      match s.kind with
      | .branch .. =>
        linesOf (depth + 1) first ++
          (if second.isEmpty then [] else .otherwise depth :: linesOf (depth + 1) second) ++
          [.close depth]
      | _ =>
        if s.kind.childBlocks = [] then [] else linesOf (depth + 1) first ++ [.close depth]
    .header depth s :: (body ++ tail)

end Listing

/-- A module as text. -/
structure Listing where
  lines : List Listing.Line
  deriving DecidableEq, Repr

namespace Listing

/-- The listing of a module. -/
def ofModule (m : Module) : Listing := ⟨Listing.linesOf 0 (m.outline rootBlock)⟩

/-- The whole text. -/
def text (l : Listing) : String := String.join (l.lines.map Line.text)

/-- The range of the header of `id` in lines that begin at byte `pos`. -/
def spanFrom (id : StmtId) : Nat → List Line → Span
  | _, [] => {}
  | pos, l :: ls =>
    if l.isHeaderOf id then
      let start := pos + l.indent.utf8ByteSize
      ⟨start, start + l.content.utf8ByteSize⟩
    else
      spanFrom id (pos + l.text.utf8ByteSize) ls

/-- Range of the header line of `id`; empty at the start for an unknown statement. -/
def span (l : Listing) (id : StmtId) : Span := spanFrom id 0 l.lines

end Listing

end WgslKernel
