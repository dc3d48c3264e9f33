import WgslKernel.Proofs.Semantics.Run
import WgslKernel.Shader.Basic

/-!
# Running a shader

The meaning of the part of a shader that integer kernels use.  Values are typed, and an operator
applied to values it is not defined for gets stuck, as does a name that is not in scope, an
assignment to a name that is not a variable, and what is outside this part of the language.
-/

namespace WgslKernel

/-! ## Values -/

/-- A value in a shader. -/
inductive Datum where
  | int (v : Int32)
  | word (v : UInt32)
  /-- An integer whose type is still open. -/
  | abstract (v : Int)
  | truth (b : Bool)
  /-- A float, by its bits. -/
  | float (bits : UInt32)
  | vec (x y z : UInt32)
  deriving DecidableEq, Repr

namespace Datum

/-- An open integer as a 32-bit one. -/
def ofAbstract (v : Int) : Run Datum :=
  if -2 ^ 31 ≤ v ∧ v < 2 ^ 31 then .done (int (Int32.ofInt v)) else .stuck

/-- A result of open type, which has 64 bits. -/
def ofOpen (v : Int) : Run Datum :=
  if -2 ^ 63 ≤ v ∧ v < 2 ^ 63 then .done (abstract v) else .stuck

/-- Two values of one type.  Beside a 32-bit integer an open one becomes such a one. -/
def unify : Datum → Datum → Run (Datum × Datum)
  | abstract v, int b => do .done (← ofAbstract v, int b)
  | int a, abstract w => do .done (int a, ← ofAbstract w)
  | c, d => .done (c, d)

/-- The value given to a name of a type.  Only an open integer changes. -/
def typed : Scalar → Datum → Run Datum
  | .i32, int v => .done (int v)
  | .i32, abstract v => ofAbstract v
  | .u32, word v => .done (word v)
  | .f32, float bits => .done (float bits)
  | _, _ => .stuck

/-- The value given to a name whose type is left to be inferred. -/
def inferred : Datum → Run Datum
  | abstract v => ofAbstract v
  | d => .done d

/-- Conversion to a scalar type.  Between signed and unsigned integers the bits stay. -/
def convert : Scalar → Datum → Run Datum
  | .i32, int v => .done (int v)
  | .i32, word v => .done (int v.toInt32)
  | .i32, truth b => .done (int (if b then 1 else 0))
  | .i32, abstract v => ofAbstract v
  | .u32, int v => .done (word v.toUInt32)
  | .u32, word v => .done (word v)
  | _, _ => .stuck

/-- The same bits as another scalar type. -/
def bitcast : Scalar → Datum → Run Datum
  | .i32, int v => .done (int v)
  | .i32, word v => .done (int v.toInt32)
  | .i32, float bits => .done (int bits.toInt32)
  | .f32, int v => .done (float v.toUInt32)
  | .f32, word v => .done (float v)
  | _, _ => .stuck

/-- A component of a vector. -/
def component : Selector → Datum → Run Datum
  | .x, vec x _ _ => .done (word x)
  | .y, vec _ y _ => .done (word y)
  | .z, vec _ _ z => .done (word z)
  | _, _ => .stuck

/-- A value as the index of a word. -/
def index : Datum → Run Int
  | int v => .done v.toInt
  | word v => .done v.toNat
  | abstract v => .done v
  | _ => .stuck

/-- Whether a variable that holds one value can be given the other. -/
def sameType : Datum → Datum → Bool
  | int _, int _ | word _, word _ | float _, float _ => true
  | _, _ => false

end Datum

/-- A literal.  A minus sign stands before a literal that has to be in range by itself. -/
def Literal.eval : Literal → Run Datum
  | int v => if -2 ^ 31 < v ∧ v < 2 ^ 31 then .done (.int (Int32.ofInt v)) else .stuck
  | uint n => if n < wordLimit then .done (.word (UInt32.ofNat n)) else .stuck
  | abstract v => .done (.abstract v)
  | pattern bits => .done (.word bits)
  | float bits => if Binary32.isFinite bits then .done (.float bits) else .stuck

/-! ## Operators -/

/-- Whether two floats differ: the zeros are equal, and a NaN differs from everything. -/
def Binary32.differ (a b : UInt32) : Bool :=
  isNaN a || isNaN b || (a != b && (magnitude a != 0 || magnitude b != 0))

namespace Operator

/-- The operators on integers.  Dividing by zero leaves the dividend, and no remainder. -/
def onInts : Operator → Int32 → Int32 → Run Datum
  | add, a, b => .done (.int (a + b))
  | sub, a, b => .done (.int (a - b))
  | mul, a, b => .done (.int (a * b))
  | div, a, b => .done (.int (if b = 0 then a else a / b))
  | rem, a, b => .done (.int (if b = 0 then 0 else a % b))
  | bitAnd, a, b => .done (.int (a &&& b))
  | bitOr, a, b => .done (.int (a ||| b))
  | bitXor, a, b => .done (.int (a ^^^ b))
  | lt, a, b => .done (.truth (a < b))
  | le, a, b => .done (.truth (a ≤ b))
  | gt, a, b => .done (.truth (b < a))
  | ge, a, b => .done (.truth (b ≤ a))
  | eq, a, b => .done (.truth (a = b))
  | ne, a, b => .done (.truth (a ≠ b))
  | shl, _, _ | shr, _, _ | and, _, _ | or, _, _ => .stuck

/-- The operators on open integers.  Nothing wraps around, and nothing is divided by zero. -/
def onOpen : Operator → Int → Int → Run Datum
  | add, v, w => Datum.ofOpen (v + w)
  | sub, v, w => Datum.ofOpen (v - w)
  | mul, v, w => Datum.ofOpen (v * w)
  | div, v, w => if w = 0 then .stuck else Datum.ofOpen (v.tdiv w)
  | rem, v, w => if w = 0 then .stuck else Datum.ofOpen (v.tmod w)
  | lt, v, w => .done (.truth (v < w))
  | le, v, w => .done (.truth (v ≤ w))
  | gt, v, w => .done (.truth (w < v))
  | ge, v, w => .done (.truth (w ≤ v))
  | eq, v, w => .done (.truth (v = w))
  | ne, v, w => .done (.truth (v ≠ w))
  | _, _, _ => .stuck

/-- The value of an operator on one type.  A shift counts modulo the width of a word. -/
def onSame : Operator → Datum → Datum → Run Datum
  | op, .int a, .int b => op.onInts a b
  | op, .abstract v, .abstract w => op.onOpen v w
  | shl, .int a, .word k => .done (.int (Int32.ofBitVec (a.toBitVec <<< (k.toNat % 32))))
  | shr, .int a, .word k => .done (.int (Int32.ofBitVec (a.toBitVec.sshiftRight (k.toNat % 32))))
  | shr, .word a, .word k => .done (.word (UInt32.ofBitVec (a.toBitVec >>> (k.toNat % 32))))
  | ne, .truth a, .truth b => .done (.truth (a != b))
  | and, .truth a, .truth b => .done (.truth (a && b))
  | or, .truth a, .truth b => .done (.truth (a || b))
  | ne, .float a, .float b => .done (.truth (Binary32.differ a b))
  | _, _, _ => .stuck

/-- The value of an operator. -/
def apply (op : Operator) (c d : Datum) : Run Datum := do
  let (c, d) ← c.unify d
  op.onSame c d

/-- The value of an operator that its left operand decides alone. -/
def shortcut : Operator → Datum → Option Datum
  | and, .truth false => some (.truth false)
  | or, .truth true => some (.truth true)
  | _, _ => none

end Operator

/-- The functions on integers. -/
def Func.apply : Func → List Datum → Run Datum
  | abs, [.int a] => .done (.int (if a < 0 then -a else a))
  | sign, [.int a] => .done (.int (if a < 0 then -1 else if a = 0 then 0 else 1))
  | max, [.int a, .int b] => .done (.int (if a < b then b else a))
  | min, [.int a, .int b] => .done (.int (if a < b then a else b))
  | select, [no, yes, .truth c] => do
    let (no, yes) ← no.unify yes
    .done (if c then yes else no)
  | _, _ => .stuck

/-- A call.  Of the conversions only those to scalars have a meaning here. -/
def Callee.apply : Callee → List Datum → Run Datum
  | func f, args => f.apply args
  | construct ⟨scalar, 1⟩, [d] => d.convert scalar
  | bitcast ⟨scalar, 1⟩, [d] => d.bitcast scalar
  | _, _ => .stuck

/-! ## Names -/

/-- A name in scope: a variable, or a value that stays. -/
structure Slot where
  name : Ident
  isVar : Bool
  value : Datum
  deriving DecidableEq, Repr

/-- The names in scope, the latest first. -/
abbrev Locals := List Slot

namespace Locals

/-- The innermost slot of a name. -/
def get? (l : Locals) (name : Ident) : Option Slot := List.find? (fun s => s.name = name) l

/-- Give a variable a new value. -/
def assign : Locals → Ident → Datum → Option Locals
  | [], _, _ => none
  | s :: l, name, d =>
    if s.name = name then
      if s.isVar ∧ d.sameType s.value then some ({ s with value := d } :: l) else none
    else (assign l name d).map (s :: ·)

end Locals

/-- What distinguishes the invocations of a dispatch from one another. -/
structure Invocation where
  /-- The number of the invocation among all of them. -/
  id : UInt32
  /-- How many workgroups were dispatched. -/
  groups : UInt32
  deriving DecidableEq, Repr

/-- The values that an invocation is given. -/
def Invocation.builtin? (inv : Invocation) : Ident → Option Datum
  | .globalInvocationId => some (.vec inv.id 0 0)
  | .numWorkgroups => some (.vec inv.groups 1 1)
  | _ => none

/-- What a shader works on. -/
structure Store where
  locals : Locals
  memory : Memory

namespace Store

/-- The store with one more name. -/
def declare (st : Store) (name : Ident) (isVar : Bool) (d : Datum) : Store :=
  { st with locals := ⟨name, isVar, d⟩ :: st.locals }

/-- The store behind a body: names declared since `outer` are gone. -/
def leave (outer st : Store) : Store :=
  { st with locals := st.locals.drop (st.locals.length - outer.locals.length) }

end Store

/-! ## Expressions -/

namespace Expr

/-- The buffer whose words an expression stands for. -/
def buffer? : Expr → Option Resource
  | select (ident (.resource r)) .words => some r
  | _ => none

variable (inv : Invocation) (st : Store)

mutual

/-- The value of an expression. -/
def eval : Expr → Run Datum
  | ident name =>
    match inv.builtin? name with
    | some d => .done d
    | none => Run.ofOption ((st.locals.get? name).map Slot.value)
  | lit literal => literal.eval
  | neg e => do
    match ← eval e with
    | .int a => .done (.int (-a))
    | _ => .stuck
  | bitNot e => do
    match ← eval e with
    | .int a => .done (.int (~~~a))
    | _ => .stuck
  | binary op lhs rhs => do
    let a ← eval lhs
    match op.shortcut a with
    | some d => .done d
    | none => do
      let b ← eval rhs
      op.apply a b
  | paren e => eval e
  | call callee args => do
    let ds ← evalAll args
    callee.apply ds
  | select e selector => do
    let d ← eval e
    d.component selector
  | index e i =>
    match e.buffer? with
    | some r => do
      let d ← eval i
      let k ← d.index
      let w ← st.memory.read r k
      .done (.int w)
    | none => .stuck
  | address _ => .stuck

/-- The values of the arguments of a call. -/
def evalAll : List Expr → Run (List Datum)
  | [] => .done []
  | e :: es => do
    let d ← eval e
    let ds ← evalAll es
    .done (d :: ds)

end

/-- The value of a condition. -/
def holds (e : Expr) : Run Bool := do
  match ← e.eval inv st with
  | .truth b => .done b
  | _ => .stuck

end Expr

/-! ## Statements -/

/-- Put a value where an assignment points. -/
def Store.put (inv : Invocation) (st : Store) (target : Expr) (d : Datum) : Run Store :=
  match target with
  | .ident name => do
    let locals ← Run.ofOption (st.locals.assign name d)
    .done { st with locals }
  | .index e i =>
    match e.buffer?, d with
    | some r, .int w => do
      let d ← i.eval inv st
      let k ← d.index
      let memory ← st.memory.write r k w
      .done { st with memory }
    | _, _ => .stuck
  | _ => .stuck

/-- The zero of a scalar type. -/
def Scalar.zero : Scalar → Datum
  | i32 => .int 0
  | u32 => .word 0
  | f32 => .float 0

/-- The effect of a line. -/
def Line.exec (inv : Invocation) (st : Store) : Line → Run (Flow × Store)
  | letBind name type value => do
    let d ← value.eval inv st
    let d ← match type with
      | some t => d.typed t.scalar
      | none => d.inferred
    .done (.next, st.declare name false d)
  | declare name type (some value) => do
    let d ← value.eval inv st
    let d ← d.typed type.scalar
    .done (.next, st.declare name true d)
  | declare name type none => .done (.next, st.declare name true type.scalar.zero)
  | assign target value => do
    let d ← value.eval inv st
    let st ← st.put inv target d
    .done (.next, st)
  | exitLoop => .done (.exit, st)
  | nextIteration => .done (.again, st)
  | perform _ | discard => .stuck

namespace LoopHeader

/-- The declaration of the counter of a loop. -/
def first (h : LoopHeader) : Line := .declare h.counter ⟨.i32, 1⟩ (some h.start)

/-- Whether the loop goes on. -/
def test (h : LoopHeader) : Expr := .binary .lt (.ident h.counter) h.stop

/-- What is done between turns. -/
def update (h : LoopHeader) : Line :=
  .assign (.ident h.counter) (.binary .add (.ident h.counter) h.step)

end LoopHeader

namespace Code

/-- One turn of a loop around a body. -/
def turn (body : Store → Run (Flow × Store)) (st : Store) : Run (Bool × Store) := do
  let (flow, inner) ← body st
  .done (flow != .exit, st.leave inner)

/-- One turn of a counting loop: its test, its body and, unless that leaves the loop, its update. -/
def countTurn (inv : Invocation) (h : LoopHeader) (body : Store → Run (Flow × Store))
    (st : Store) : Run (Bool × Store) := do
  if ← h.test.holds inv st then
    let (more, st) ← turn body st
    if more then
      let (_, st) ← h.update.exec inv st
      .done (true, st)
    else .done (false, st)
  else .done (false, st)

/-- A body that is entered once. -/
def once (body : Store → Run (Flow × Store)) (st : Store) : Run (Flow × Store) := do
  let (flow, inner) ← body st
  .done (flow, st.leave inner)

/-- The effect of a sequence.  No loop takes more than `fuel` turns. -/
def exec (inv : Invocation) (fuel : Nat) : Code → Store → Run (Flow × Store)
  | done, st => .done (.next, st)
  | line l rest, st => (l.exec inv st).andThen (exec inv fuel rest)
  | branch c yes rest, st => do
    let b ← c.holds inv st
    let x := if b then once (exec inv fuel yes) st else .done (.next, st)
    x.andThen (exec inv fuel rest)
  | branchElse c yes no rest, st => do
    let b ← c.holds inv st
    let x := if b then once (exec inv fuel yes) st else once (exec inv fuel no) st
    x.andThen (exec inv fuel rest)
  | loop body rest, st => do
    let st ← Run.repeats (turn (exec inv fuel body)) fuel st
    exec inv fuel rest st
  | countLoop h body rest, st => do
    let (_, inner) ← h.first.exec inv st
    let inner ← Run.repeats (countTurn inv h (exec inv fuel body)) fuel inner
    exec inv fuel rest (st.leave inner)

end Code

/-- Run the entry point of a shader in one invocation.  Control has to leave it at its end. -/
def Shader.run (s : Shader) (inv : Invocation) (fuel : Nat) (memory : Memory) : Run Memory := do
  match ← (s.prologue ++ s.body).exec inv fuel ⟨[], memory⟩ with
  | (.next, st) => .done st.memory
  | _ => .stuck

end WgslKernel
