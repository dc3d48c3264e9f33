import WgslKernel.Module
import WgslKernel.Stage

/-!
# Offloads

An offload is a slice of a module's top level that is dispatched on its own: a parallel loop or a
graphics stage by itself, or a run of the other statements.  `Module.groups` is the split of the
top level into offloads.  Constants belong to none of them, and do not end a run.
-/

namespace WgslKernel

/-- How an offload is dispatched. -/
inductive OffloadKind where
  | serial
  | rangeFor
  | vertexFor
  | fragmentFor
  deriving DecidableEq, Repr

namespace OffloadKind

/-- How a kind is named in a descriptor. -/
def name : OffloadKind → String
  | serial => "serial"
  | rangeFor => "range_for"
  | vertexFor => "vertex_for"
  | fragmentFor => "fragment_for"

/-- Pipeline stage the offload is generated for. -/
def stage : OffloadKind → Stage
  | serial | rangeFor => .compute
  | vertexFor => .vertex
  | fragmentFor => .fragment

/-- The offload runs in compute shaders. -/
def isCompute (k : OffloadKind) : Bool := k.stage == .compute

/-- The kind of a statement that always gets a dispatch of its own. -/
def standalone? : Kind → Option OffloadKind
  | .rangeFor _ false _ => some .rangeFor
  | .vertexFor _ => some .vertexFor
  | .fragmentFor _ => some .fragmentFor
  | _ => none

end OffloadKind

/-- A separately dispatched slice of a module's top level. -/
structure Offload where
  kind : OffloadKind
  /-- Top-level statements, in order. -/
  stmts : List StmtId
  deriving DecidableEq, Repr

namespace Offload

/-- The statement an offload other than a serial one is about. -/
def root? (o : Offload) : Option StmtId :=
  match o.kind with
  | .serial => none
  | _ => o.stmts.head?

end Offload

namespace Module

/-- Kind of the offload made of the given statements. -/
def detectKind (m : Module) : List StmtId → Except Fault OffloadKind
  | [id] => do
    let s ← m.stmt id
    .ok ((OffloadKind.standalone? s.kind).getD .serial)
  | _ => .ok .serial

/-- The offload made of the given statements. -/
def offloadOf (m : Module) (stmts : List StmtId) : Except Fault Offload := do
  let kind ← m.detectKind stmts
  .ok ⟨kind, stmts⟩

/-- A run of statements as a serial offload, unless it is empty. -/
def flushRun (run : List StmtId) : List Offload :=
  if run = [] then [] else [⟨.serial, run⟩]

/-- The offloads of a list of top-level statements, when `run` is the run in progress. -/
def groupsFrom (m : Module) (run : List StmtId) : List StmtId → List Offload
  | [] => flushRun run
  | id :: ids =>
    match m.kind? id with
    | none => m.groupsFrom run ids
    | some kind =>
      if kind.isConst then m.groupsFrom run ids
      else
        match OffloadKind.standalone? kind with
        | some k => flushRun run ++ ⟨k, [id]⟩ :: m.groupsFrom [] ids
        | none => m.groupsFrom (run ++ [id]) ids

/-- The offloads of a module, in dispatch order. -/
def groups (m : Module) : List Offload := m.groupsFrom [] (m.blockStmts rootBlock)

end Module

end WgslKernel
