import WgslKernel.Field
import WgslKernel.Texture

/-!
# Statements

A kernel is a graph of statements.  A statement is named by its number (`StmtId`), reads earlier
statements (`Kind.operands`) and, when it is control flow, owns blocks of further statements
(`Kind.childBlocks`).  Numbers are given out in order of creation, so "defined before" is `<`.
-/

namespace WgslKernel

/-- Number of a statement, assigned in definition order.  Numbers stand for 32-bit words: the two
agree as long as a module has fewer than `2 ^ 32` statements; beyond that, words would wrap around.
-/
abbrev StmtId := Nat

/-- Number of a block, standing for a 32-bit word like that of a statement: the two agree as long as
a module has at most `2 ^ 32` blocks.  Block `rootBlock` is the top level of a module. -/
abbrev BlockId := Nat

/-- The block of the top level. -/
def rootBlock : BlockId := 0

/-- How a statement is written in listings and messages: `%7`. -/
def stmtRef (id : StmtId) : String := s!"%{id}"

/-! ## Operators -/

/-- Operations on two values. -/
inductive BinaryOp where
  | mul
  | add
  | sub
  /-- Always produces `f32`. -/
  | trueDiv
  /-- Rounds toward negative infinity. -/
  | floorDiv
  /-- Native division of the promoted operand type. -/
  | div
  /-- The result takes the sign of the divisor. -/
  | mod
  | max
  | min
  | bitAnd
  | bitOr
  | bitXor
  | bitShl
  /-- Logical shift right. -/
  | bitShr
  /-- Arithmetic shift right. -/
  | bitSar
  | cmpLt
  | cmpLe
  | cmpGt
  | cmpGe
  | cmpEq
  | cmpNe
  | atan2
  | pow
  | logicalOr
  | logicalAnd
  deriving DecidableEq, Repr

namespace BinaryOp

/-- How an operation is named in listings. -/
def name : BinaryOp → String
  | mul => "mul"
  | add => "add"
  | sub => "sub"
  | trueDiv => "truediv"
  | floorDiv => "floordiv"
  | div => "div"
  | mod => "mod"
  | max => "max"
  | min => "min"
  | bitAnd => "bit_and"
  | bitOr => "bit_or"
  | bitXor => "bit_xor"
  | bitShl => "bit_shl"
  | bitShr => "bit_shr"
  | bitSar => "bit_sar"
  | cmpLt => "cmp_lt"
  | cmpLe => "cmp_le"
  | cmpGt => "cmp_gt"
  | cmpGe => "cmp_ge"
  | cmpEq => "cmp_eq"
  | cmpNe => "cmp_ne"
  | atan2 => "atan2"
  | pow => "pow"
  | logicalOr => "logical_or"
  | logicalAnd => "logical_and"

/-- Every operator, in a fixed order. -/
def all : List BinaryOp :=
  [mul, add, sub, trueDiv, floorDiv, div, mod, max, min, bitAnd, bitOr, bitXor, bitShl, bitShr,
    bitSar, cmpLt, cmpLe, cmpGt, cmpGe, cmpEq, cmpNe, atan2, pow, logicalOr, logicalAnd]

/-- Operators on bit patterns, which need integer operands. -/
def isBitwise : BinaryOp → Bool
  | bitAnd | bitOr | bitXor | bitShl | bitShr | bitSar => true
  | _ => false

end BinaryOp

/-- Operations on one value. -/
inductive UnaryOp where
  | neg
  | sqrt
  | round
  | floor
  | ceil
  | castI32Value
  | castF32Value
  | castI32Bits
  | castF32Bits
  | abs
  | sgn
  | sin
  | asin
  | cos
  | acos
  | tan
  | tanh
  | inv
  | rcp
  | exp
  | log
  | rsqrt
  | bitNot
  | logicNot
  deriving DecidableEq, Repr

namespace UnaryOp

/-- How an operation is named in listings. -/
def name : UnaryOp → String
  | neg => "neg"
  | sqrt => "sqrt"
  | round => "round"
  | floor => "floor"
  | ceil => "ceil"
  | castI32Value => "cast_i32_value"
  | castF32Value => "cast_f32_value"
  | castI32Bits => "cast_i32_bits"
  | castF32Bits => "cast_f32_bits"
  | abs => "abs"
  | sgn => "sgn"
  | sin => "sin"
  | asin => "asin"
  | cos => "cos"
  | acos => "acos"
  | tan => "tan"
  | tanh => "tanh"
  | inv => "inv"
  | rcp => "rcp"
  | exp => "exp"
  | log => "log"
  | rsqrt => "rsqrt"
  | bitNot => "bit_not"
  | logicNot => "logic_not"

/-- Every operator, in a fixed order. -/
def all : List UnaryOp :=
  [neg, sqrt, round, floor, ceil, castI32Value, castF32Value, castI32Bits, castF32Bits, abs, sgn,
    sin, asin, cos, acos, tan, tanh, inv, rcp, exp, log, rsqrt, bitNot, logicNot]

end UnaryOp

/-- Updates of a word by one step. -/
inductive AtomicOp where
  | add
  | sub
  | max
  | min
  deriving DecidableEq, Repr

namespace AtomicOp

/-- How an update is named in listings. -/
def name : AtomicOp → String
  | add => "add"
  | sub => "sub"
  | max => "max"
  | min => "min"

/-- Every operator, in a fixed order. -/
def all : List AtomicOp := [add, sub, max, min]

end AtomicOp

/-! ## Parts of statements -/

/-- A literal.  Floats are kept as their bit pattern, so every value is distinct. -/
inductive Const where
  | i32 (value : Int32)
  | f32 (bits : UInt32)
  deriving DecidableEq, Repr

/-- The type of a constant. -/
def Const.prim : Const → Prim
  | i32 _ => .i32
  | f32 _ => .f32

/-- Iteration bound of a range-for. -/
inductive RangeBound where
  /-- The loop runs over `0, …, value - 1`. -/
  | value (stmt : StmtId)
  /-- The loop runs over every element of a field. -/
  | field (field : Field)
  deriving DecidableEq, Repr

/-- Four operands: the components of a position, a colour or a texel. -/
structure Quad where
  x : StmtId
  y : StmtId
  z : StmtId
  w : StmtId
  deriving DecidableEq, Repr

namespace Quad

/-- The four in order. -/
def toList (q : Quad) : List StmtId := [q.x, q.y, q.z, q.w]

/-- Four, if there are four. -/
def ofList? : List StmtId → Option Quad
  | [x, y, z, w] => some ⟨x, y, z, w⟩
  | _ => none

end Quad

/-- What the pipeline hands to a stage. -/
inductive BuiltinInput where
  | vertexIndex
  | instanceIndex
  /-- Fragment-stage window position. -/
  | fragCoord
  deriving DecidableEq, Repr

/-- How an input is named in listings. -/
def BuiltinInput.name : BuiltinInput → String
  | vertexIndex => "vertex_index"
  | instanceIndex => "instance_index"
  | fragCoord => "frag_coord"

/-- What a stage hands to the pipeline. -/
inductive BuiltinOutput where
  | position (values : Quad)
  | fragDepth (value : StmtId)
  | color (location : Nat) (values : Quad)
  deriving DecidableEq, Repr

/-- The statements that an output reads. -/
def BuiltinOutput.operands : BuiltinOutput → List StmtId
  | position q => q.toList
  | fragDepth v => [v]
  | color _ q => q.toList

/-- The direction of a derivative. -/
inductive Axis where
  | x
  | y
  deriving DecidableEq, Repr

/-- Name of the derivative along an axis. -/
def Axis.derivative : Axis → String
  | x => "dpdx"
  | y => "dpdy"

/-- What a texture statement does with its texture. -/
inductive TextureAccess where
  | sample
  | sampleLod (level : StmtId)
  | load
  | store (texel : Quad)
  deriving DecidableEq, Repr

namespace TextureAccess

/-- How an access is named in listings. -/
def name : TextureAccess → String
  | sample => "texture_sample"
  | sampleLod _ => "texture_sample_lod"
  | load => "texture_load"
  | store _ => "texture_store"

/-- Operands besides the coordinates. -/
def operands : TextureAccess → List StmtId
  | sample | load => []
  | sampleLod level => [level]
  | store texel => texel.toList

end TextureAccess

/-! ## Statements -/

/-- What a statement does. -/
inductive Kind where
  | const (value : Const)
  | loopIndex (loop : StmtId)
  /-- Word `arg` of the kernel's argument block. -/
  | argLoad (ty : Prim) (arg : Nat)
  | rand (ty : Prim)
  | unary (op : UnaryOp) (operand : StmtId)
  | binary (op : BinaryOp) (lhs rhs : StmtId)
  | branch (cond : StmtId) (thenBlock elseBlock : BlockId)
  | whileTrue (body : BlockId)
  | exitLoop
  | nextIteration
  /-- With `serial` the loop never becomes a parallel dispatch. -/
  | rangeFor (bound : RangeBound) (serial : Bool) (body : BlockId)
  | vertexFor (body : BlockId)
  | fragmentFor (body : BlockId)
  | alloca (ty : Prim)
  | localLoad (ptr : StmtId)
  | localStore (ptr value : StmtId)
  | globalPtr (field : Field) (indices : List StmtId) (elementOffset : Nat)
  | globalLoad (ptr : StmtId)
  | globalStore (ptr value : StmtId)
  /-- Dispatch-wide scratch value at a byte offset. -/
  | temporary (ty : Prim) (offset : Nat)
  | temporaryLoad (ptr : StmtId)
  | temporaryStore (ptr value : StmtId)
  | atomic (op : AtomicOp) (dest value : StmtId)
  | atomicLoad (ptr : StmtId)
  | atomicStore (ptr value : StmtId)
  | vertexInput (ty : Prim) (location : Nat)
  | vertexOutput (value : StmtId) (location : Nat)
  | fragmentInput (ty : Prim) (location : Nat)
  | builtinInput (input : BuiltinInput)
  | builtinOutput (output : BuiltinOutput)
  | derivative (axis : Axis) (operand : StmtId)
  | discard
  | texture (access : TextureAccess) (texture : Texture) (coords : List StmtId)
  | extract (composite : StmtId) (index : Nat)
  | ret (values : List StmtId)
  deriving DecidableEq, Repr

namespace Kind

/-- Statements this one reads, in operand order. -/
def operands : Kind → List StmtId
  | const _ | argLoad .. | rand _ | whileTrue _ | exitLoop | nextIteration | vertexFor _
  | fragmentFor _ | alloca _ | temporary .. | vertexInput .. | fragmentInput .. | builtinInput _
  | discard => []
  | rangeFor (.field _) _ _ => []
  | rangeFor (.value v) _ _ => [v]
  | loopIndex loop => [loop]
  | unary _ x => [x]
  | binary _ x y => [x, y]
  | branch cond _ _ => [cond]
  | localLoad ptr | globalLoad ptr | temporaryLoad ptr | atomicLoad ptr => [ptr]
  | localStore ptr v | globalStore ptr v | temporaryStore ptr v | atomicStore ptr v => [ptr, v]
  | globalPtr _ indices _ => indices
  | atomic _ dest v => [dest, v]
  | vertexOutput v _ => [v]
  | builtinOutput output => output.operands
  | derivative _ x => [x]
  | texture access _ coords => coords ++ access.operands
  | extract composite _ => [composite]
  | ret values => values

/-- Blocks owned by the statement. -/
def childBlocks : Kind → List BlockId
  | branch _ thenBlock elseBlock => [thenBlock, elseBlock]
  | whileTrue body | rangeFor _ _ body | vertexFor body | fragmentFor body => [body]
  | _ => []

/-- Name of the kind in messages. -/
def name : Kind → String
  | const _ => "const"
  | loopIndex _ => "loop_index"
  | argLoad .. => "arg_load"
  | rand _ => "rand"
  | unary .. => "unary_op"
  | binary .. => "binary_op"
  | branch .. => "if"
  | whileTrue _ => "while"
  | exitLoop => "while_control"
  | nextIteration => "continue"
  | rangeFor .. => "range_for"
  | vertexFor _ => "vertex_for"
  | fragmentFor _ => "fragment_for"
  | alloca _ => "alloca"
  | localLoad _ => "local_load"
  | localStore .. => "local_store"
  | globalPtr .. => "global_ptr"
  | globalLoad _ => "global_load"
  | globalStore .. => "global_store"
  | temporary .. => "global_temporary"
  | temporaryLoad _ => "global_temporary_load"
  | temporaryStore .. => "global_temporary_store"
  | atomic .. => "atomic_op"
  | atomicLoad _ => "atomic_load"
  | atomicStore .. => "atomic_store"
  | vertexInput .. => "vertex_input"
  | vertexOutput .. => "vertex_output"
  | fragmentInput .. => "fragment_input"
  | builtinInput _ => "builtin_input"
  | builtinOutput _ => "builtin_output"
  | derivative .. => "fragment_derivative"
  | discard => "discard"
  | texture .. => "texture_function"
  | extract .. => "composite_extract"
  | ret _ => "return"

/-- Constants belong to no dispatch: they are spelled out wherever they are read. -/
def isConst : Kind → Bool
  | const _ => true
  | _ => false

/-- Loop-like statements: those an exit or a continuation can refer to. -/
def isLoop : Kind → Bool
  | whileTrue _ | rangeFor .. | vertexFor _ | fragmentFor _ => true
  | _ => false

end Kind

/-- One statement of a module. -/
structure Stmt where
  id : StmtId
  /-- Block the statement was appended to. -/
  block : BlockId
  kind : Kind
  deriving DecidableEq, Repr

end WgslKernel
