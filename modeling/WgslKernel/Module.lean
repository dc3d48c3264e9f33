import WgslKernel.Fault

/-!
# Modules

A module is an arena of statements plus the blocks that order them.  Two views are taken of it.

* **Upward**, `Module.enclosing`: the statements owning a block, innermost first.
* **Downward**, `Module.outline`: the tree of statements under a block.  An `Outline` is a list of
  statements, each with the outlines of the blocks it owns; no statement owns more than two, so
  the tree is a plain inductive type and everything that walks a module recurses on it.

Both walks are bounded by the number of blocks: a block is made before anything inside it, so no
chain of nested blocks is longer than that.
-/

namespace WgslKernel

/-- A sequence of statements belonging to one region of a kernel. -/
structure Block where
  /-- Control-flow statement owning the block; the root has none. -/
  owner : Option StmtId := none
  stmts : List StmtId := []
  deriving DecidableEq, Repr

/-- A statement graph. -/
structure Module where
  stmts : Array Stmt := #[]
  blocks : Array Block := #[{}]
  deriving DecidableEq, Repr

/-- A list of statements with the contents of the blocks they own. -/
inductive Outline where
  | nil
  | cons (stmt : Stmt) (first second rest : Outline)
  deriving DecidableEq, Repr

namespace Outline

/-- Every statement of the outline, a control-flow statement before what it contains. -/
def stmts : Outline → List Stmt
  | nil => []
  | cons s first second rest => s :: (first.stmts ++ (second.stmts ++ rest.stmts))

/-- There is no statement. -/
def isEmpty : Outline → Bool
  | nil => true
  | cons .. => false

end Outline

namespace Module

/-! ## Looking things up -/

/-- The statement numbered `id`. -/
def stmt (m : Module) (id : StmtId) : Except Fault Stmt :=
  match m.stmts[id]? with
  | some s => .ok s
  | none => .error (.indexOutOfBounds m.stmts.size id)

/-- The block numbered `b`. -/
def block (m : Module) (b : BlockId) : Except Fault Block :=
  match m.blocks[b]? with
  | some blk => .ok blk
  | none => .error (.indexOutOfBounds m.blocks.size b)

/-- What the statement numbered `id` does, if there is one. -/
def kind? (m : Module) (id : StmtId) : Option Kind := m.stmts[id]?.map Stmt.kind

/-- Statements of a block, in order. -/
def blockStmts (m : Module) (b : BlockId) : List StmtId :=
  match m.blocks[b]? with
  | some blk => blk.stmts
  | none => []

/-- Number the next appended statement will receive. -/
def nextId (m : Module) : StmtId := m.stmts.size

/-! ## Enclosing statements -/

/-- The owners met on at most `steps` moves from a block to the block holding its owner. -/
def ancestors (m : Module) : Nat → BlockId → List StmtId
  | 0, _ => []
  | steps + 1, b =>
    match m.blocks[b]?.bind Block.owner with
    | none => []
    | some owner =>
      match m.stmts[owner]? with
      | none => [owner]
      | some s => owner :: m.ancestors steps s.block

/-- Chain of statements owning block `b`, innermost first. -/
def enclosing (m : Module) (b : BlockId) : List StmtId := m.ancestors m.blocks.size b

/-- Chain of statements owning an existing block. -/
def enclosing? (m : Module) (b : BlockId) : Except Fault (List StmtId) := do
  let _ ← m.block b
  .ok (m.enclosing b)

/-! ## Nested statements -/

/-- The tree under the listed statements, given the trees under blocks. -/
def outlineOf (m : Module) (under : BlockId → Outline) : List StmtId → Outline
  | [] => .nil
  | id :: ids =>
    match m.stmts[id]? with
    | none => m.outlineOf under ids
    | some s =>
      match s.kind.childBlocks with
      | [] => .cons s .nil .nil (m.outlineOf under ids)
      | [b] => .cons s (under b) .nil (m.outlineOf under ids)
      | b :: c :: _ => .cons s (under b) (under c) (m.outlineOf under ids)

/-- The tree under block `b`, down to `depth` levels. -/
def outlineTo (m : Module) : Nat → BlockId → Outline
  | 0, _ => .nil
  | depth + 1, b => m.outlineOf (m.outlineTo depth) (m.blockStmts b)

/-- The tree of statements in block `b`. -/
def outline (m : Module) (b : BlockId) : Outline := m.outlineTo m.blocks.size b

/-- The tree of one statement alone. -/
def outlineAt (m : Module) (id : StmtId) : Except Fault Outline := do
  let _ ← m.stmt id
  .ok (m.outlineOf m.outline [id])

/-- Insertion into an ascending list, before equal members. -/
def insertAscending (id : StmtId) : List StmtId → List StmtId
  | [] => [id]
  | x :: xs => if id ≤ x then id :: x :: xs else x :: insertAscending id xs

/-- The members of a list in ascending order, repetitions kept. -/
def ascending (ids : List StmtId) : List StmtId := ids.foldr insertAscending []

/-- Every statement nested under the given ones, with those, in definition order; one reached along
several entries of `top` is listed once for each. -/
def nested (m : Module) (top : List StmtId) : Except Fault (List StmtId) := do
  let outlines ← top.mapM m.outlineAt
  .ok (ascending (outlines.flatMap fun o => o.stmts.map Stmt.id))

/-! ## Growing -/

/-- The module with one more empty block, and the number of that block. -/
def newBlock (m : Module) (owner : StmtId) : Module × BlockId :=
  ({ m with blocks := m.blocks.push { owner := some owner } }, m.blocks.size)

/-- The module with one more statement at the end of block `b`. -/
def append (m : Module) (b : BlockId) (kind : Kind) : Module :=
  { stmts := m.stmts.push { id := m.nextId, block := b, kind }
    blocks := m.blocks.modify b fun blk => { blk with stmts := blk.stmts ++ [m.nextId] } }

end Module

end WgslKernel
