import WgslKernel.Decimal.Binary32
import WgslKernel.Resource
import WgslKernel.Stage

/-!
# Shader expressions

Expressions of the shaders that are generated.  An `Expr` is the operator tree that is meant;
`Expr.text` writes it down and adds no parentheses of its own, so every pair of parentheses that
the text needs is a `paren` of the tree.

Names are data as well: an `Ident` says what is named, and `Ident.text` spells it.
-/

namespace WgslKernel

/-! ## Names -/

/-- A name that a shader declares or is given. -/
inductive Ident where
  /-- The value, or the variable, of a statement. -/
  | temp (id : StmtId)
  /-- Induction variable of a range-for. -/
  | counter (id : StmtId)
  /-- Truncated remainder computed on the way to a floored one. -/
  | remainder (id : StmtId)
  /-- Word last seen by a compare-exchange loop. -/
  | seen (id : StmtId)
  /-- Word a compare-exchange loop tries to write. -/
  | wanted (id : StmtId)
  /-- Outcome of a compare-exchange. -/
  | outcome (id : StmtId)
  /-- Induction variable of the loop spread over all invocations. -/
  | gridIndex
  | rangeEnd
  | totalInvocs
  | randId
  | randState
  | globalInvocationId
  | numWorkgroups
  | stageInput
  | stageOutput
  | resource (r : Resource)
  deriving DecidableEq, Repr

/-- How an identifier is written. -/
def Ident.text : Ident → String
  | temp id => s!"t{id}"
  | counter id => s!"t{id}_i"
  | remainder id => s!"t{id}_r"
  | seen id => s!"t{id}_old"
  | wanted id => s!"t{id}_new"
  | outcome id => s!"t{id}_res"
  | gridIndex => "ii"
  | rangeEnd => "range_end"
  | totalInvocs => "total_invocs"
  | randId => "rand_id"
  | randState => "rand_state"
  | globalInvocationId => "global_invocation_id"
  | numWorkgroups => "num_workgroups"
  | stageInput => "stage_input"
  | stageOutput => "stage_output"
  | resource r => r.name

/-- A member selected from a structure or vector. -/
inductive Selector where
  /-- The words of a buffer. -/
  | words
  | x
  | y
  | z
  | w
  | exchanged
  | oldValue
  | stage (name : MemberName)
  deriving DecidableEq, Repr

namespace Selector

/-- How a selector is written. -/
def text : Selector → String
  | words => "member"
  | x => "x"
  | y => "y"
  | z => "z"
  | w => "w"
  | exchanged => "exchanged"
  | oldValue => "old_value"
  | stage name => name.text

/-- The component of a vector at an index. -/
def component? : Nat → Option Selector
  | 0 => some x
  | 1 => some y
  | 2 => some z
  | 3 => some w
  | _ => none

end Selector

/-! ## Operators and functions -/

/-- Two-operand operators. -/
inductive Operator where
  | add
  | sub
  | mul
  | div
  | rem
  | bitAnd
  | bitOr
  | bitXor
  | shl
  | shr
  | lt
  | le
  | gt
  | ge
  | eq
  | ne
  | and
  | or
  deriving DecidableEq, Repr

/-- How an operator is written. -/
def Operator.symbol : Operator → String
  | add => "+"
  | sub => "-"
  | mul => "*"
  | div => "/"
  | rem => "%"
  | bitAnd => "&"
  | bitOr => "|"
  | bitXor => "^"
  | shl => "<<"
  | shr => ">>"
  | lt => "<"
  | le => "<="
  | gt => ">"
  | ge => ">="
  | eq => "=="
  | ne => "!="
  | and => "&&"
  | or => "||"

/-- Functions a shader calls. -/
inductive Func where
  | abs
  | sign
  | round
  | floor
  | ceil
  | sqrt
  | sin
  | asin
  | cos
  | acos
  | tan
  | tanh
  | exp
  | log
  | inverseSqrt
  | atan2
  | pow
  | max
  | min
  | select
  | dpdx
  | dpdy
  | atomicLoad
  | atomicStore
  | atomicAdd
  | atomicSub
  | atomicMax
  | atomicMin
  | atomicCompareExchangeWeak
  | textureSample
  | textureSampleLevel
  | textureLoad
  | textureStore
  | randU32
  | randF32
  deriving DecidableEq, Repr

/-- How a function is written. -/
def Func.name : Func → String
  | abs => "abs"
  | sign => "sign"
  | round => "round"
  | floor => "floor"
  | ceil => "ceil"
  | sqrt => "sqrt"
  | sin => "sin"
  | asin => "asin"
  | cos => "cos"
  | acos => "acos"
  | tan => "tan"
  | tanh => "tanh"
  | exp => "exp"
  | log => "log"
  | inverseSqrt => "inverseSqrt"
  | atan2 => "atan2"
  | pow => "pow"
  | max => "max"
  | min => "min"
  | select => "select"
  | dpdx => "dpdx"
  | dpdy => "dpdy"
  | atomicLoad => "atomicLoad"
  | atomicStore => "atomicStore"
  | atomicAdd => "atomicAdd"
  | atomicSub => "atomicSub"
  | atomicMax => "atomicMax"
  | atomicMin => "atomicMin"
  | atomicCompareExchangeWeak => "atomicCompareExchangeWeak"
  | textureSample => "textureSample"
  | textureSampleLevel => "textureSampleLevel"
  | textureLoad => "textureLoad"
  | textureStore => "textureStore"
  | randU32 => "rand_u32"
  | randF32 => "rand_f32"

/-- What stands before an argument list. -/
inductive Callee where
  | func (f : Func)
  /-- Conversion to, or construction of, a type. -/
  | construct (type : ShaderType)
  /-- The same bits read as another type. -/
  | bitcast (type : ShaderType)
  deriving DecidableEq, Repr

/-- How what is called is written. -/
def Callee.text : Callee → String
  | func f => f.name
  | construct type => type.name
  | bitcast type => s!"bitcast<{type.name}>"

/-! ## Literals -/

/-- Literals, each with its type. -/
inductive Literal where
  /-- A signed integer: `-7i`. -/
  | int (value : Int)
  /-- An unsigned integer: `7u`. -/
  | uint (value : Nat)
  /-- An integer of any numeric type: `7`. -/
  | abstract (value : Int)
  /-- A bit pattern as an unsigned integer of eight hexadecimal digits: `0x7f800000u`. -/
  | pattern (bits : UInt32)
  /-- A finite float, by its bit pattern: `1.0f`. -/
  | float (bits : UInt32)
  deriving DecidableEq, Repr

/-- The lowest `count` hexadecimal digits of a number. -/
def hexDigits : Nat → Nat → List Char
  | 0, _ => []
  | count + 1, n => hexDigits count (n / 16) ++ [Nat.digitChar (n % 16)]

/-- How a literal is written. -/
def Literal.text : Literal → String
  | int v => s!"{v}i"
  | uint n => s!"{n}u"
  | abstract v => s!"{v}"
  | pattern bits => "0x" ++ String.ofList (hexDigits 8 bits.toNat) ++ "u"
  | float bits => Binary32.text bits ++ "f"

/-! ## Expressions -/

/-- Expressions of shaders. -/
inductive Expr where
  | ident (name : Ident)
  | lit (literal : Literal)
  | neg (e : Expr)
  | bitNot (e : Expr)
  | binary (op : Operator) (lhs rhs : Expr)
  | paren (e : Expr)
  | call (callee : Callee) (args : List Expr)
  | select (e : Expr) (selector : Selector)
  | index (e : Expr) (i : Expr)
  /-- Pointer to a place. -/
  | address (e : Expr)
  deriving Repr

namespace Expr

mutual

/-- The expression as shader text. -/
def text : Expr → String
  | ident name => name.text
  | lit literal => literal.text
  | neg e => "-" ++ e.text
  | bitNot e => "~" ++ e.text
  | binary op lhs rhs => lhs.text ++ " " ++ op.symbol ++ " " ++ rhs.text
  | paren e => "(" ++ e.text ++ ")"
  | call callee args => callee.text ++ "(" ++ String.intercalate ", " (texts args) ++ ")"
  | select e selector => e.text ++ "." ++ selector.text
  | index e i => e.text ++ "[" ++ i.text ++ "]"
  | address e => "&" ++ e.text

/-- The arguments of a call, each as text. -/
def texts : List Expr → List String
  | [] => []
  | e :: es => e.text :: texts es

end

/-! ### Shorthand -/

/-- A signed integer. -/
def int (v : Int) : Expr := lit (.int v)

/-- A call of a function. -/
def func (f : Func) (args : List Expr) : Expr := call (.func f) args

/-- Conversion of an expression to a type. -/
def convert (type : ShaderType) (e : Expr) : Expr := call (.construct type) [e]

/-- The bits of an expression read as another type. -/
def bitcast (type : ShaderType) (e : Expr) : Expr := call (.bitcast type) [e]

/-- A word of a buffer. -/
def word (r : Resource) (i : Expr) : Expr := index (select (ident (.resource r)) .words) i

/-- A member of the stage's input. -/
def input (name : MemberName) : Expr := select (ident .stageInput) (.stage name)

/-- A member of the stage's output. -/
def output (name : MemberName) : Expr := select (ident .stageOutput) (.stage name)

/-- An integer constant.  The least integer has no literal, and is written as a conversion. -/
def ofInt32 (v : Int32) : Expr :=
  if v = Int32.minValue then convert ⟨.i32, 1⟩ (lit (.abstract v.toInt)) else int v.toInt

/-- A float constant.  Infinities and NaNs have no literal and are written as their bits. -/
def ofFloat (bits : UInt32) : Expr :=
  if Binary32.isFinite bits then lit (.float bits) else bitcast ⟨.f32, 1⟩ (lit (.pattern bits))

/-- The zero of a scalar kind. -/
def zero (prim : Prim) : Expr :=
  match prim with
  | .f32 => lit (.float 0)
  | _ => int 0

end Expr

end WgslKernel
