import WgslKernel.Decimal.Binary32
import WgslKernel.Offload
import WgslKernel.Proofs.Semantics.Run

/-!
# Running a kernel

The meaning of integer statements, without any regard to how they are generated.  Arithmetic is that
of the integers, taken modulo the width of a word at the end; addresses are exact.  Division by zero
and words outside of a buffer are faults.  A statement that is given a value of the wrong kind, or
that works on anything but 32-bit integers, is stuck.
-/

namespace WgslKernel

/-! ## Operators -/

/-- A truth value as an integer. -/
def truthWord (b : Bool) : Int32 := if b then 1 else 0

/-- The amount of a shift: it counts modulo the width of a word. -/
def shiftAmount (b : Int32) : Nat := (b.toInt % 32).toNat

/-- The unary operators on integers. -/
def UnaryOp.onInt : UnaryOp → Int32 → Run Int32
  | neg, a => .done (Int32.ofInt (-a.toInt))
  | round, a | floor, a | ceil, a | castI32Value, a | castI32Bits, a => .done a
  | abs, a => .done (Int32.ofInt a.toInt.natAbs)
  | sgn, a => .done (Int32.ofInt a.toInt.sign)
  | bitNot, a => .done (Int32.ofInt (-a.toInt - 1))
  | logicNot, a => .done (truthWord (a = 0))
  | _, _ => .stuck

/-- The binary operators on integers. -/
def BinaryOp.onInts (op : BinaryOp) (a b : Int32) : Run Int32 :=
  let x := a.toInt
  let y := b.toInt
  match op with
  | mul => .done (Int32.ofInt (x * y))
  | add => .done (Int32.ofInt (x + y))
  | sub => .done (Int32.ofInt (x - y))
  | floorDiv => if y = 0 then .fault else .done (Int32.ofInt (x.fdiv y))
  | div => if y = 0 then .fault else .done (Int32.ofInt (x.tdiv y))
  | mod => if y = 0 then .fault else .done (Int32.ofInt (x.fmod y))
  | max => .done (Int32.ofInt (Max.max x y))
  | min => .done (Int32.ofInt (Min.min x y))
  | bitAnd => .done (a &&& b)
  | bitOr => .done (a ||| b)
  | bitXor => .done (a ^^^ b)
  | bitShl => .done (Int32.ofInt (x * 2 ^ shiftAmount b))
  | bitShr => .done (Int32.ofInt ((x % wordLimit) / 2 ^ shiftAmount b))
  | bitSar => .done (Int32.ofInt (x / 2 ^ shiftAmount b))
  | cmpLt => .done (truthWord (x < y))
  | cmpLe => .done (truthWord (x ≤ y))
  | cmpGt => .done (truthWord (y < x))
  | cmpGe => .done (truthWord (y ≤ x))
  | cmpEq => .done (truthWord (x = y))
  | cmpNe => .done (truthWord (x ≠ y))
  | logicalOr => .done (truthWord (x ≠ 0 ∨ y ≠ 0))
  | logicalAnd => .done (truthWord (x ≠ 0 ∧ y ≠ 0))
  | trueDiv | atan2 | pow => .stuck

/-! ## Values -/

/-- What a statement stands for while a kernel runs. -/
inductive Item where
  | word (w : Int32)
  /-- A float constant, by its bits. -/
  | float (bits : UInt32)
  /-- A local variable, with what it holds. -/
  | cell (w : Int32)
  /-- A word of a root buffer. -/
  | place (buffer : Nat) (index : Int)
  /-- A word of the global temporaries. -/
  | scratch (index : Nat)
  deriving DecidableEq, Repr

namespace Item

/-- What a constant stands for. -/
def ofConst : Const → Item
  | .i32 v => word v
  | .f32 bits => float bits

/-- A number as an integer. -/
def asWord : Item → Run Int32
  | word w => .done w
  | _ => .stuck

/-- Whether a number is different from zero. -/
def isNonzero : Item → Run Bool
  | word w => .done (w ≠ 0)
  | float bits => .done (Binary32.magnitude bits ≠ 0)
  | _ => .stuck

/-- A number as the word that a buffer holds. -/
def bits : Item → Run Int32
  | word w => .done w
  | float bits => .done bits.toInt32
  | _ => .stuck

end Item

/-- What a kernel works on: the values of its statements, and the buffers. -/
structure Frame where
  env : StmtId → Option Item
  memory : Memory

namespace Frame

/-- The frame after statement `id` was given a value. -/
def set (f : Frame) (id : StmtId) (item : Item) : Frame :=
  { f with env := fun x => if x = id then some item else f.env x }

theorem set_env_of_ne {f : Frame} {id x : StmtId} {item : Item} (h : x ≠ id) :
    (f.set id item).env x = f.env x := if_neg h

/-- What statement `id` stands for. -/
def item (f : Frame) (id : StmtId) : Run Item := Run.ofOption (f.env id)

/-- The integer that statement `id` stands for. -/
def word (f : Frame) (id : StmtId) : Run Int32 := f.item id >>= Item.asWord

/-- The integers that statements stand for. -/
def words (f : Frame) : List StmtId → Run (List Int32)
  | [] => .done []
  | id :: ids => do
    let w ← f.word id
    let ws ← f.words ids
    .done (w :: ws)

/-- Run a statement that gives a value and does nothing else. -/
def give (f : Frame) (id : StmtId) (item : Item) : Run (Flow × Frame) :=
  .done (.next, f.set id item)

/-- Fill the return block from word `k` on. -/
def fill (f : Frame) (k : Nat) : List StmtId → Run Memory
  | [] => .done f.memory
  | id :: ids => do
    let item ← f.item id
    let w ← item.bits
    let memory ← f.memory.write .rets k w
    fill { f with memory } (k + 1) ids

end Frame

/-! ## Statements -/

/-- The effect of statement `id`, when it owns no blocks. -/
def Kind.perform (id : StmtId) (f : Frame) : Kind → Run (Flow × Frame)
  | const c => f.give id (.ofConst c)
  | loopIndex loop => do
    let i ← f.word loop
    f.give id (.word i)
  | argLoad .i32 arg => do
    let w ← f.memory.read .args arg
    f.give id (.word w)
  | unary op x => do
    let a ← f.word x
    let r ← op.onInt a
    f.give id (.word r)
  | binary op x y => do
    let a ← f.word x
    let b ← f.word y
    let r ← op.onInts a b
    f.give id (.word r)
  | exitLoop => .done (.exit, f)
  | nextIteration => .done (.again, f)
  | alloca .i32 => f.give id (.cell 0)
  | localLoad ptr => do
    match ← f.item ptr with
    | .cell w => f.give id (.word w)
    | _ => .stuck
  | localStore ptr v => do
    let w ← f.word v
    match ← f.item ptr with
    | .cell _ => .done (.next, f.set ptr (.cell w))
    | _ => .stuck
  | globalPtr field indices elementOffset => do
    let ws ← f.words indices
    let i ← Run.ofOption (field.linearIndex (ws.map Int32.toInt) elementOffset)
    f.give id (.place field.buffer i)
  | globalLoad ptr => do
    match ← f.item ptr with
    | .place buffer i => do
      let w ← f.memory.read (.root buffer) i
      f.give id (.word w)
    | _ => .stuck
  | globalStore ptr v => do
    let w ← f.word v
    match ← f.item ptr with
    | .place buffer i => do
      let memory ← f.memory.write (.root buffer) i w
      .done (.next, { f with memory })
    | _ => .stuck
  | temporary .i32 offset => f.give id (.scratch (offset / 4))
  | temporaryLoad ptr => do
    match ← f.item ptr with
    | .scratch i => do
      let w ← f.memory.read .globalTmps i
      f.give id (.word w)
    | _ => .stuck
  | temporaryStore ptr v => do
    let w ← f.word v
    match ← f.item ptr with
    | .scratch i => do
      let memory ← f.memory.write .globalTmps i w
      .done (.next, { f with memory })
    | _ => .stuck
  | ret values => do
    let memory ← f.fill 0 values
    .done (.next, { f with memory })
  | _ => .stuck

/-- How many times a range-for runs its body; not at all if this is negative. -/
def RangeBound.count (f : Frame) : RangeBound → Run Int
  | value v => do
    let n ← f.word v
    .done n.toInt
  | field g => do
    let n ← Run.ofOption g.elementCount
    .done n

namespace Outline

/-- One turn of a loop around a body. -/
def turn (body : Frame → Run (Flow × Frame)) (f : Frame) : Run (Bool × Frame) := do
  let (flow, f) ← body f
  .done (flow != .exit, f)

/-- One turn of the range-for `id`, which has `i` turns behind it. -/
def countTurn (id : StmtId) (n : Int) (body : Frame → Run (Flow × Frame)) :
    Nat × Frame → Run (Bool × (Nat × Frame))
  | (i, f) =>
    if i < n then do
      let (more, f) ← turn body (f.set id (.word (Int32.ofInt i)))
      .done (more, (i + 1, f))
    else .done (false, (i, f))

/-- The effect of a list of statements.  No loop takes more than `fuel` turns. -/
def run (fuel : Nat) : Outline → Frame → Run (Flow × Frame)
  | nil, f => .done (.next, f)
  | cons s first second rest, f =>
    match s.kind with
    | .branch cond _ _ => do
      let item ← f.item cond
      let b ← item.isNonzero
      let x := if b then run fuel first f else run fuel second f
      x.andThen (run fuel rest)
    | .whileTrue _ => do
      let f ← Run.repeats (turn (run fuel first)) fuel f
      run fuel rest f
    | .rangeFor bound _ _ => do
      let n ← bound.count f
      let (_, f) ← Run.repeats (countTurn s.id n (run fuel first)) fuel (0, f)
      run fuel rest f
    | kind => (kind.perform s.id f).andThen (run fuel rest)

section Equations

variable {fuel : Nat} {s : Stmt} {first second rest : Outline} {f : Frame}

theorem run_branch {cond : StmtId} {b₁ b₂ : BlockId} (h : s.kind = .branch cond b₁ b₂) :
    (cons s first second rest).run fuel f = f.item cond >>= fun item => item.isNonzero >>= fun b =>
      (if b then first.run fuel f else second.run fuel f).andThen (rest.run fuel) := by
  simp only [run, h]

theorem run_whileTrue {b : BlockId} (h : s.kind = .whileTrue b) :
    (cons s first second rest).run fuel f =
      Run.repeats (turn (first.run fuel)) fuel f >>= rest.run fuel := by
  simp only [run, h]

theorem run_rangeFor {bound : RangeBound} {serial : Bool} {b : BlockId}
    (h : s.kind = .rangeFor bound serial b) :
    (cons s first second rest).run fuel f = bound.count f >>= fun n =>
      Run.repeats (countTurn s.id n (first.run fuel)) fuel (0, f) >>= fun p =>
        rest.run fuel p.2 := by
  simp only [run, h]

/-- A statement that owns no blocks. -/
theorem run_leaf (h : s.kind.childBlocks = []) :
    (cons s first second rest).run fuel f = (s.kind.perform s.id f).andThen (rest.run fuel) := by
  rw [run]
  split
  all_goals first | rfl | simp_all [Kind.childBlocks]

end Equations

end Outline

namespace Module

/-- The values that are there before anything runs. -/
def constants (m : Module) (id : StmtId) : Option Item :=
  match m.kind? id with
  | some (.const c) => some (.ofConst c)
  | _ => none

/-- Run the statements of an offload one after another.  Control has to leave them at the end. -/
def interpret (m : Module) (o : Offload) (fuel : Nat) (memory : Memory) : Run Memory := do
  match ← (m.outlineOf m.outline o.stmts).run fuel ⟨m.constants, memory⟩ with
  | (.next, f) => .done f.memory
  | _ => .stuck

end Module

/-! ## Integer kernels -/

/-- The operators that take integers to integers without a float in between. -/
def UnaryOp.isIntegral : UnaryOp → Bool
  | neg | round | floor | ceil | castI32Value | castI32Bits | abs | sgn | bitNot | logicNot => true
  | _ => false

/-- The operator is defined on integers. -/
def BinaryOp.isIntegral : BinaryOp → Bool
  | trueDiv | atan2 | pow => false
  | _ => true

/-- Statements that stand for a place. -/
def Kind.isAddress : Kind → Bool
  | alloca _ | globalPtr .. | temporary .. => true
  | _ => false

namespace Module

/-- Statement `x` stands for a number, not for a place. -/
def isNumber (m : Module) (x : StmtId) : Bool := (m.kind? x).any fun kind => !kind.isAddress

/-- Statement `x` stands for a number and is not a float constant. -/
def isInteger (m : Module) (x : StmtId) : Bool :=
  m.isNumber x &&
    match m.kind? x with
    | some (.const (.f32 _)) => false
    | _ => true

/-- Statements that work on 32-bit integers only, and use places only as places. -/
def isIntegral (m : Module) : Kind → Bool
  | .const (.i32 _) | .loopIndex _ | .whileTrue _ | .exitLoop | .nextIteration | .localLoad _
  | .globalLoad _ | .temporaryLoad _ => true
  | .argLoad ty _ | .alloca ty | .temporary ty _ => ty = .i32
  | .unary op x => op.isIntegral && m.isInteger x
  | .binary op x y => op.isIntegral && m.isInteger x && m.isInteger y
  | .branch cond _ _ => m.isNumber cond
  | .rangeFor (.value v) _ _ => m.isNumber v
  | .rangeFor (.field _) _ _ => true
  | .localStore _ v | .globalStore _ v | .temporaryStore _ v => m.isNumber v
  | .globalPtr field indices _ => field.dtype = .i32 && indices.all m.isNumber
  | .ret values => values.all m.isNumber
  | _ => false

section Equations

variable (m : Module)

theorem isIntegral_argLoad (ty : Prim) (arg : Nat) :
    m.isIntegral (.argLoad ty arg) = true ↔ ty = .i32 := decide_eq_true_iff

theorem isIntegral_alloca (ty : Prim) : m.isIntegral (.alloca ty) = true ↔ ty = .i32 :=
  decide_eq_true_iff

theorem isIntegral_temporary (ty : Prim) (offset : Nat) :
    m.isIntegral (.temporary ty offset) = true ↔ ty = .i32 := decide_eq_true_iff

theorem isIntegral_unary (op : UnaryOp) (x : StmtId) : m.isIntegral (.unary op x) = true ↔
    op.isIntegral = true ∧ m.isInteger x = true := Bool.and_eq_true_iff

theorem isIntegral_binary (op : BinaryOp) (x y : StmtId) : m.isIntegral (.binary op x y) = true ↔
    (op.isIntegral = true ∧ m.isInteger x = true) ∧ m.isInteger y = true := by
  rw [← Bool.and_eq_true_iff, ← Bool.and_eq_true_iff]
  rfl

theorem isIntegral_globalPtr (f : Field) (indices : List StmtId) (offset : Nat) :
    m.isIntegral (.globalPtr f indices offset) = true ↔
      f.dtype = .i32 ∧ indices.all m.isNumber = true := by
  rw [← decide_eq_true_iff (p := f.dtype = .i32), ← Bool.and_eq_true_iff]
  rfl

end Equations

end Module

end WgslKernel
