import WgslKernel.Module

/-!
# Building modules

A builder holds the module under construction and the stack of blocks that are open for
appending.  Appending a statement (`Builder.append`) checks that it reads only statements that are
already defined and in scope; opening a block (`Builder.openGuard`) hands out a `Guard`, which is
given back to close it (`Builder.closeGuard`), last opened first closed.
-/

namespace WgslKernel

/-- Handle for a block that is open for appending: the block, and how many were open with it. -/
structure Guard where
  block : BlockId
  depth : Nat
  deriving DecidableEq, Repr

/-- A module under construction. -/
structure Builder where
  module : Module := {}
  /-- Open blocks, outermost first.  None open means that the root is current. -/
  opened : List BlockId := []
  deriving DecidableEq, Repr

namespace Builder

/-- Block new statements are appended to. -/
def current (b : Builder) : BlockId := b.opened.getLast?.getD rootBlock

/-- A statement may read `operand` only if it exists and its block is the root or open. -/
def checkOperand (b : Builder) (kind : Kind) (operand : StmtId) : Except Fault Unit :=
  match b.module.stmts[operand]? with
  | none => .error (.undefinedOperand b.module.nextId kind.name operand)
  | some s =>
    if s.block = rootBlock ∨ s.block ∈ b.opened then .ok ()
    else .error (.operandOutOfScope b.module.nextId kind.name operand)

/-- Append a statement to the current block, once all its operands are in scope. -/
def append (b : Builder) (kind : Kind) : Except Fault (Builder × StmtId) := do
  kind.operands.forM (b.checkOperand kind)
  .ok ({ b with module := b.module.append b.current kind }, b.module.nextId)

/-- Append a statement owning one new block. -/
def appendWithBlock (b : Builder) (kind : BlockId → Kind) : Except Fault (Builder × StmtId) :=
  let (m, body) := b.module.newBlock b.module.nextId
  append { b with module := m } (kind body)

/-- Append a statement owning two new blocks. -/
def appendWithBlocks (b : Builder) (kind : BlockId → BlockId → Kind) :
    Except Fault (Builder × StmtId) :=
  let (m, first) := b.module.newBlock b.module.nextId
  let (m, second) := m.newBlock m.nextId
  append { b with module := m } (kind first second)

/-- Require that `id` names a statement fit for `role`. -/
def expect (b : Builder) (id : StmtId) (role : Role) : Except Fault Unit :=
  match b.module.kind? id with
  | none => .error (.missingStmt id)
  | some kind => if role.admits kind then .ok () else .error (.wrongRole id role kind.name)

/-- Kind of the innermost loop-like statement around the insertion point. -/
def innermostLoop (b : Builder) : Option Kind :=
  ((b.module.enclosing b.current).filterMap b.module.kind?).find? Kind.isLoop

/-! ## Guards -/

/-- Open a block of statement `id`, which must live in the current block. -/
def openGuard (b : Builder) (opening : Opening) (id : StmtId) : Except Fault (Builder × Guard) := do
  let s ← b.module.stmt id
  match opening.block? s.kind with
  | none => .error (.notOpenable id opening)
  | some block => do
    let blk ← b.module.block block
    match blk.owner with
    | none => .error .rootGuard
    | some owner => do
      let o ← b.module.stmt owner
      if o.block = b.current then
        .ok ({ b with opened := b.opened ++ [block] }, ⟨block, b.opened.length + 1⟩)
      else
        .error (.guardNotNested owner b.current)

/-- Close the most recently opened block, which must be the one the guard stands for. -/
def closeGuard (b : Builder) (guard : Guard) : Except Fault Builder :=
  if b.opened.length = guard.depth ∧ b.opened.getLast? = some guard.block then
    .ok { b with opened := b.opened.dropLast }
  else
    .error (.guardOutOfOrder guard.block b.opened)

/-- The finished module.  Every guard must have been closed. -/
def finish (b : Builder) : Except Fault Module :=
  if b.opened = [] then .ok b.module else .error (.unclosedGuards b.opened.length)

end Builder

end WgslKernel
