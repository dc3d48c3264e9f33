/-!
# Primitive kinds and the types of values

Every value a kernel computes is a scalar or a short vector of one primitive kind.  Only the
32-bit kinds have a shader spelling; the 64-bit kinds describe host values and are refused by
name (`TypeError.unsupported`) instead of being spelled wrongly.

The spelling of a scalar or vector goes through `ShaderType`, which has exactly the shapes a shader
can name, so that a value type either becomes one of those (`ValueType.shaderType`) or says why
it cannot.
-/

namespace WgslKernel

/-! ## Primitive kinds -/

/-- Scalar element kind of a value. -/
inductive Prim where
  | i32
  | f32
  | i64
  | f64
  deriving DecidableEq, Repr

namespace Prim

/-- How a primitive is named. -/
def name : Prim → String
  | i32 => "i32"
  | f32 => "f32"
  | i64 => "i64"
  | f64 => "f64"

/-- The primitive is a float. -/
def isFloat : Prim → Bool
  | f32 | f64 => true
  | i32 | i64 => false

/-- The primitive is an integer. -/
def isInteger (p : Prim) : Bool := !p.isFloat

/-- Size of one element in bytes. -/
def byteSize : Prim → Nat
  | i32 | f32 => 4
  | i64 | f64 => 8

end Prim

/-- Why a type has no shader spelling. -/
inductive TypeError where
  | unsupported (prim : Prim)
  | badComponentCount (count : Nat)
  deriving DecidableEq, Repr

/-- How an error is reported. -/
def TypeError.message : TypeError → String
  | unsupported p => s!"primitive type `{p.name}` has no WGSL representation"
  | badComponentCount n => s!"cannot form a {n}-component value"

/-! ## Shader types -/

/-- Scalar kinds a shader can name. -/
inductive Scalar where
  | i32
  | u32
  | f32
  deriving DecidableEq, Repr

/-- How a scalar is named in a shader. -/
def Scalar.name : Scalar → String
  | i32 => "i32"
  | u32 => "u32"
  | f32 => "f32"

/-- A shader scalar (`width = 1`) or vector. -/
structure ShaderType where
  scalar : Scalar
  width : Nat := 1
  deriving DecidableEq, Repr

/-- A scalar is written bare, a vector as `vecN<…>`. -/
def ShaderType.name (t : ShaderType) : String :=
  if t.width = 1 then t.scalar.name else s!"vec{t.width}<{t.scalar.name}>"

/-- The shader kind of a primitive, for the kinds that have one. -/
def Prim.scalar? : Prim → Except TypeError Scalar
  | .i32 => .ok .i32
  | .f32 => .ok .f32
  | p => .error (.unsupported p)

/-- The kind a value of this primitive is converted to: a float, or else an integer word. -/
def Prim.toScalar : Prim → Scalar
  | .f32 => .f32
  | _ => .i32

/-! ## Value types -/

/-- Type of one value: a primitive kind and a component count. -/
structure ValueType where
  prim : Prim
  components : Nat
  deriving DecidableEq, Repr

namespace ValueType

/-- One value of a primitive. -/
def ofPrim (prim : Prim) : ValueType := ⟨prim, 1⟩

/-- There is a single component. -/
def isScalar (t : ValueType) : Bool := t.components == 1

/-- The display form used in messages: `f32`, `f32x4`. -/
def display (t : ValueType) : String :=
  if t.components = 1 then t.prim.name else s!"{t.prim.name}x{t.components}"

/-- The shader type of a value: the kind is checked before the component count. -/
def shaderType (t : ValueType) : Except TypeError ShaderType := do
  let scalar ← t.prim.scalar?
  if 1 ≤ t.components ∧ t.components ≤ 4 then
    .ok ⟨scalar, t.components⟩
  else
    .error (.badComponentCount t.components)

/-- Shader spelling of a value type. -/
def name (t : ValueType) : Except TypeError String :=
  t.shaderType.map ShaderType.name

/-- Byte size of a scalar or vector, without trailing padding. -/
def byteSize (t : ValueType) : Except TypeError Nat :=
  t.shaderType.map fun _ => t.prim.byteSize * t.components

end ValueType

/-! ## Matrices -/

/-- Type of a matrix of `columns` columns with `rows` entries each. -/
structure MatrixType where
  prim : Prim
  columns : Nat
  rows : Nat
  deriving DecidableEq, Repr

namespace MatrixType

/-- A matrix holds `f32` and has two to four columns and rows; the column count is checked first. -/
def check (t : MatrixType) : Except TypeError Unit :=
  if t.prim ≠ .f32 then .error (.unsupported t.prim)
  else if ¬ (2 ≤ t.columns ∧ t.columns ≤ 4) then .error (.badComponentCount t.columns)
  else if ¬ (2 ≤ t.rows ∧ t.rows ≤ 4) then .error (.badComponentCount t.rows)
  else .ok ()

/-- How a matrix is named in a shader. -/
def name (t : MatrixType) : Except TypeError String :=
  t.check.map fun _ => s!"mat{t.columns}x{t.rows}<f32>"

/-- Bytes of one column: a column of three is padded to the alignment of four. -/
def columnStride (t : MatrixType) : Nat :=
  if t.rows = 3 then 16 else t.rows * 4

/-- The bytes of all columns. -/
def byteSize (t : MatrixType) : Except TypeError Nat :=
  t.check.map fun _ => t.columns * t.columnStride

end MatrixType

end WgslKernel
