import WgslKernel.Codegen.Error

/-!
# Partitioning

A module is dispatched offload by offload, so no offload may read a value that another computes.
`Module.partition` is the list of offloads of a module in which that holds, or the first read that
violates it.  Constants may be read from anywhere, and the bound of a parallel loop may be loaded
from a global temporary by an earlier dispatch.
-/

namespace WgslKernel

namespace Module

/-- Whether the statement reads, as the bound of a range-for, a load of a global temporary. -/
def isDynamicBound (m : Module) (kind : Kind) (operand : StmtId) : Bool :=
  match kind with
  | .rangeFor (.value v) _ _ =>
    v == operand &&
      match m.kind? operand with
      | some (.temporaryLoad ptr) =>
        match m.kind? ptr with
        | some (.temporary ..) => true
        | _ => false
      | _ => false
  | _ => false

/-- Whether statement `s` of an offload with the given members may read `operand`. -/
def mayRead (m : Module) (o : Offload) (members : List StmtId) (s : Stmt) (operand : StmtId) :
    Bool :=
  members.contains operand || ((m.kind? operand).any Kind.isConst) ||
    (o.root? == some s.id && m.isDynamicBound s.kind operand)

/-- Check the operands of one statement of an offload. -/
def checkReads (m : Module) (o : Offload) (members : List StmtId) (id : StmtId) :
    Except Halt Unit := do
  let s ← orFault (m.stmt id)
  match s.kind.operands.find? fun operand => !m.mayRead o members s operand with
  | some operand => refuse (.crossOffloadReference id operand)
  | none => .ok ()

/-- Check that an offload computes what it reads. -/
def checkSelfContained (m : Module) (o : Offload) : Except Halt Unit := do
  let members ← orFault (m.nested o.stmts)
  members.forM (m.checkReads o members)

/-- The offloads of a module, in dispatch order. -/
def partition (m : Module) : Except Halt (List Offload) := do
  m.groups.forM m.checkSelfContained
  .ok m.groups

end Module

end WgslKernel
