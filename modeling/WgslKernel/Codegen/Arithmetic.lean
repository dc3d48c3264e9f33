import WgslKernel.Codegen.Basic

/-!
# Arithmetic

Unary and binary operators, and the components of vectors.  Operands are promoted to `f32` when
one of them is a float, and a scalar beside a vector is spread over its components.
-/

namespace WgslKernel.Codegen

/-- Bitwise operators take integers only. -/
def requireInteger (id : StmtId) (op : String) (v : Value) : Except Halt Unit :=
  if v.type.prim = .i32 then .ok () else mismatch id (.needsIntegers op v.type)

/-- Operator `op` takes scalars only. -/
def requireScalar (id : StmtId) (op : String) (v : Value) : Except Halt Unit :=
  if v.type.isScalar then .ok () else mismatch id (.needsScalars op v.type)

/-! ## Unary operators -/

/-- Type and expression of a unary operator. -/
def unaryExpr (id : StmtId) (op : UnaryOp) (x : Value) : Except Halt (ValueType × Expr) :=
  let n := x.type.components
  let floats : ValueType := ⟨.f32, n⟩
  let ints : ValueType := ⟨.i32, n⟩
  let xf := x.coerce .f32 n
  let float (f : Func) : Except Halt (ValueType × Expr) := .ok (floats, .func f [xf])
  -- Integers are whole already.
  let whole (f : Func) : Except Halt (ValueType × Expr) :=
    if x.type.prim = .i32 then .ok (x.type, x.expr) else float f
  match op with
  | .neg => .ok (x.type, .neg (.paren x.expr))
  | .round => whole .round
  | .floor => whole .floor
  | .ceil => whole .ceil
  | .castI32Value => .ok (ints, x.coerce .i32 n)
  | .castF32Value => .ok (floats, xf)
  | .castI32Bits => .ok (ints, .bitcast ⟨.i32, n⟩ x.expr)
  | .castF32Bits => .ok (floats, .bitcast ⟨.f32, n⟩ x.expr)
  | .abs => .ok (x.type, .func .abs [x.expr])
  | .sgn => .ok (x.type, .func .sign [x.expr])
  | .sqrt => float .sqrt
  | .sin => float .sin
  | .asin => float .asin
  | .cos => float .cos
  | .acos => float .acos
  | .tan => float .tan
  | .tanh => float .tanh
  | .exp => float .exp
  | .log => float .log
  | .rsqrt => float .inverseSqrt
  | .inv | .rcp => .ok (floats, .binary .div (.lit (.float 0x3f800000)) xf)
  | .bitNot => do
    requireInteger id op.name x
    .ok (x.type, .bitNot x.expr)
  | .logicNot => do
    requireScalar id op.name x
    .ok (ints, .convert ⟨.i32, 1⟩ (.binary .eq x.expr (.zero x.type.prim)))

/-- A unary operation. -/
def lowerUnary (ctx : Context) (values : Values) (id : StmtId) (op : UnaryOp) (x : StmtId) :
    Except Halt Lowering := do
  let x ← ctx.value values id x
  checkPrim id x.type.prim
  let (type, e) ← unaryExpr id op x
  Lowering.define id type e

/-! ## Binary operators -/

/-- The components of a result: those of the operands, or of the one that is not a scalar. -/
def joinComponents (id : StmtId) (op : BinaryOp) (a b : ValueType) : Except Halt Nat :=
  if a.components = b.components ∨ b.isScalar then .ok a.components
  else if a.isScalar then .ok b.components
  else mismatch id (.operandShapes op a b)

/-- The kind two operands are promoted to. -/
def joinPrim (a b : Prim) : Prim := if a = .f32 ∨ b = .f32 then .f32 else .i32

/-- Whether the signs of two integers differ: `(a < 0i) != (b < 0i)`. -/
def signsDiffer (a b : Expr) : Expr :=
  .binary .ne (.paren (.binary .lt a (.int 0))) (.paren (.binary .lt b (.int 0)))

/-- The floored quotient: the truncated one, less one if it is inexact and the signs differ. -/
def floorDivExpr (a b : Expr) : Expr :=
  let q := Expr.binary .div a b
  .func .select
    [q, .binary .sub q (.int 1),
      .binary .and (.paren (.binary .ne (.binary .rem a b) (.int 0)))
        (.paren (signsDiffer a b))]

/-- The remainder with the sign of the divisor, from the truncated remainder `r`. -/
def floorModExpr (r b : Expr) : Expr :=
  .func .select
    [r, .binary .add r b,
      .binary .and (.paren (.binary .ne r (.int 0))) (.paren (signsDiffer r b))]

/-- Whether a scalar is not zero. -/
def Value.isNonzero (v : Value) : Expr := .paren (.binary .ne v.expr (.zero v.type.prim))

/-- Type and expression of a binary operator, after the lines it needs first. -/
def binaryExpr (id : StmtId) (op : BinaryOp) (a b : Value) (n : Nat) :
    Except Halt (ValueType × Expr × Code) :=
  let prim := joinPrim a.type.prim b.type.prim
  let type : ValueType := ⟨prim, n⟩
  let floats : ValueType := ⟨.f32, n⟩
  let ints : ValueType := ⟨.i32, n⟩
  let pa := a.coerce prim n
  let pb := b.coerce prim n
  let fa := a.coerce .f32 n
  let fb := b.coerce .f32 n
  let words : ShaderType := ⟨.u32, n⟩
  let scalars : Except Halt Unit := do
    requireScalar id op.name a
    requireScalar id op.name b
  let compare (o : Operator) : Except Halt (ValueType × Expr × Code) :=
    .ok (ints, .convert ⟨.i32, n⟩ (.binary o pa pb), .done)
  match op with
  | .mul => .ok (type, .binary .mul pa pb, .done)
  | .add => .ok (type, .binary .add pa pb, .done)
  | .sub => .ok (type, .binary .sub pa pb, .done)
  | .div => .ok (type, .binary .div pa pb, .done)
  | .trueDiv => .ok (floats, .binary .div fa fb, .done)
  | .floorDiv =>
    if prim = .f32 then .ok (type, .func .floor [.binary .div pa pb], .done)
    else do
      scalars
      .ok (type, floorDivExpr pa pb, .done)
  | .mod =>
    if prim = .f32 then
      .ok (type, .binary .sub pa (.binary .mul pb (.func .floor [.binary .div pa pb])), .done)
    else do
      scalars
      let r := Ident.remainder id
      .ok (type, floorModExpr (.ident r) pb,
        .line (.letBind r (some ⟨.i32, 1⟩) (.binary .rem pa pb)) .done)
  | .max => .ok (type, .func .max [pa, pb], .done)
  | .min => .ok (type, .func .min [pa, pb], .done)
  | .bitAnd => .ok (type, .binary .bitAnd pa pb, .done)
  | .bitOr => .ok (type, .binary .bitOr pa pb, .done)
  | .bitXor => .ok (type, .binary .bitXor pa pb, .done)
  | .bitShl => .ok (type, .binary .shl pa (.convert words pb), .done)
  | .bitShr =>
    .ok (type, .convert ⟨.i32, n⟩ (.binary .shr (.convert words pa) (.convert words pb)), .done)
  | .bitSar => .ok (type, .binary .shr pa (.convert words pb), .done)
  | .atan2 => .ok (floats, .func .atan2 [fa, fb], .done)
  | .pow =>
    if prim = .f32 then .ok (type, .func .pow [pa, pb], .done)
    else .ok (type, .convert ⟨.i32, n⟩ (.func .round [.func .pow [fa, fb]]), .done)
  | .logicalOr => do
    scalars
    .ok (ints, .convert ⟨.i32, 1⟩ (.binary .or a.isNonzero b.isNonzero), .done)
  | .logicalAnd => do
    scalars
    .ok (ints, .convert ⟨.i32, 1⟩ (.binary .and a.isNonzero b.isNonzero), .done)
  | .cmpLt => compare .lt
  | .cmpLe => compare .le
  | .cmpGt => compare .gt
  | .cmpGe => compare .ge
  | .cmpEq => compare .eq
  | .cmpNe => compare .ne

/-- A binary operation. -/
def lowerBinary (ctx : Context) (values : Values) (id : StmtId) (op : BinaryOp)
    (lhs rhs : StmtId) : Except Halt Lowering := do
  let a ← ctx.value values id lhs
  let b ← ctx.value values id rhs
  checkPrim id a.type.prim
  checkPrim id b.type.prim
  let n ← joinComponents id op a.type b.type
  if op.isBitwise then
    requireInteger id op.name a
    requireInteger id op.name b
  let (type, e, before) ← binaryExpr id op a b n
  Lowering.define id type e before

/-! ## Components -/

/-- One component of a vector. -/
def lowerExtract (ctx : Context) (values : Values) (id : StmtId) (composite : StmtId)
    (index : Nat) : Except Halt Lowering := do
  let v ← ctx.value values id composite
  if v.type.components ≤ index ∨ v.type.isScalar then
    mismatch id (.component index v.type)
  else
    match Selector.component? index with
    | some selector => Lowering.define id (.ofPrim v.type.prim) (.select v.expr selector)
    | none => .error (.fault (.indexOutOfBounds 4 index))

end WgslKernel.Codegen
