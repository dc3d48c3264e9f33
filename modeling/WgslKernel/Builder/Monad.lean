import WgslKernel.Builder.Op

/-!
# Writing kernels

A monad for writing kernels down: `Build.create` appends a statement, and `Build.inside` appends
everything that a part of the program does to a block of a statement.
-/

namespace WgslKernel

/-- A program that builds a module. -/
abbrev Build := StateT Builder (Except Fault)

namespace Build

/-- Append a statement. -/
def create (op : Op) : Build StmtId := do
  let (b, id) ← liftM ((← get).create op)
  set b
  return id

/-- Append the statements of `body` to a block of statement `id`. -/
def inside (opening : Opening) (id : StmtId) (body : Build Unit) : Build Unit := do
  let (b, guard) ← liftM ((← get).openGuard opening id)
  set b
  body
  set (← liftM ((← get).closeGuard guard))

/-- The module built by a program. -/
def module (p : Build Unit) : Except Fault Module := do
  let (_, b) ← p.run {}
  b.finish

/-! ## Shorthand -/

/-- An integer constant. -/
def constI32 (v : Int32) : Build StmtId := create (.const (.i32 v))

/-- A float constant, by its bit pattern. -/
def constF32 (bits : UInt32) : Build StmtId := create (.const (.f32 bits))

/-- A unary operation. -/
def unary (op : UnaryOp) (x : StmtId) : Build StmtId := create (.unary op x)

/-- A binary operation. -/
def binary (op : BinaryOp) (x y : StmtId) : Build StmtId := create (.binary op x y)

/-- A statement whose value is of no interest. -/
def perform (op : Op) : Build Unit := do
  let _ ← create op

end Build

end WgslKernel
