import Mathlib.Logic.Function.Basic
import WgslKernel.Proofs.Scoping.Scope
import WgslKernel.Proofs.Semantics.Shader

/-!
# Invocations that share memory

Any number of invocations work on the same buffers, and each can be interrupted between any two
lines.  A step touches memory at most once, with an atomic call that is the whole value of its line.
Operators on floats are left open (`Floats`).  Counting loops are stuck here, and so is plain access
to the words of a buffer.
-/

namespace WgslKernel

open List

/-! ## Values -/

/-- The operators on floats that atomic updates use, as functions of bit patterns. -/
structure Floats where
  add : UInt32 → UInt32 → UInt32
  sub : UInt32 → UInt32 → UInt32
  max : UInt32 → UInt32 → UInt32
  min : UInt32 → UInt32 → UInt32

namespace Floats

variable (F : Floats)

/-- An operator, also on floats. -/
def operator : Operator → Datum → Datum → Run Datum
  | .add, .float a, .float b => .done (.float (F.add a b))
  | .sub, .float a, .float b => .done (.float (F.sub a b))
  | op, a, b => op.apply a b

/-- A call, also on floats. -/
def call : Callee → List Datum → Run Datum
  | .func .max, [.float a, .float b] => .done (.float (F.max a b))
  | .func .min, [.float a, .float b] => .done (.float (F.min a b))
  | callee, args => callee.apply args

end Floats

/-- What a name stands for. -/
inductive Held where
  | datum (d : Datum)
  /-- The outcome of a compare-exchange: the word that was found, and whether it was replaced. -/
  | outcome (old : Int32) (exchanged : Bool)
  deriving DecidableEq, Repr

namespace Held

/-- The value of a name that has one. -/
def value : Held → Run Datum
  | datum d => .done d
  | outcome _ _ => .stuck

/-- A part of what is held. -/
def component (selector : Selector) : Held → Run Datum
  | datum d => d.component selector
  | outcome old exchanged =>
    match selector with
    | .oldValue => .done (.int old)
    | .exchanged => .done (.truth exchanged)
    | _ => .stuck

/-- What is given to a name of a type, or to one whose type is left to be inferred. -/
def typed : Option ShaderType → Held → Run Held
  | some t, datum d => d.typed t.scalar >>= fun d => .done (datum d)
  | none, datum d => d.inferred >>= fun d => .done (datum d)
  | some _, outcome _ _ => .stuck
  | none, outcome old exchanged => .done (outcome old exchanged)

end Held

/-! ## Names -/

/-- A name in scope: a variable, or something that stays. -/
structure Cell where
  name : Ident
  isVar : Bool
  held : Held
  deriving DecidableEq, Repr

/-- The names in scope, the latest first. -/
abbrev Scope := List Cell

namespace Scope

/-- What a name holds. -/
def get? (scope : Scope) (name : Ident) : Option Held :=
  (List.find? (fun c => c.name = name) scope).map Cell.held

/-- Give a variable a new value. -/
def assign : Scope → Ident → Datum → Option Scope
  | [], _, _ => none
  | c :: scope, name, d =>
    if c.name = name then
      match c.held with
      | .datum old =>
        if c.isVar ∧ d.sameType old then some ({ c with held := .datum d } :: scope) else none
      | .outcome _ _ => none
    else (assign scope name d).map (c :: ·)

/-- The scope behind a body that was entered with `depth` names. -/
def leave (scope : Scope) (depth : Nat) : Scope := scope.drop (scope.length - depth)

theorem leave_append (inner outer : Scope) : leave (inner ++ outer) outer.length = outer := by
  rw [leave, length_append, Nat.add_sub_cancel, drop_left]

theorem get?_cons_of_ne {c : Cell} {scope : Scope} {name : Ident} (h : c.name ≠ name) :
    get? (c :: scope) name = get? scope name := by
  simp [get?, h]

end Scope

/-! ## Expressions -/

namespace Expr

variable (F : Floats) (scope : Scope)

/-- A part of an expression.  The outcome of an exchange has parts, but no value. -/
def part (selector : Selector) (value : Run Datum) : Expr → Run Datum
  | ident name => Run.ofOption (scope.get? name) >>= Held.component selector
  | _ => value >>= Datum.component selector

mutual

/-- The value of an expression without effects. -/
def value : Expr → Run Datum
  | ident name => Run.ofOption (scope.get? name) >>= Held.value
  | lit literal => literal.eval
  | neg e => do
    match ← value e with
    | .int a => .done (.int (-a))
    | _ => .stuck
  | bitNot e => do
    match ← value e with
    | .int a => .done (.int (~~~a))
    | _ => .stuck
  | binary op lhs rhs => do
    let a ← value lhs
    match op.shortcut a with
    | some d => .done d
    | none => do
      let b ← value rhs
      F.operator op a b
  | paren e => value e
  | call callee args => values args >>= F.call callee
  | select e selector => part scope selector (value e) e
  | index _ _ | address _ => .stuck

/-- The values of the arguments of a call. -/
def values : List Expr → Run (List Datum)
  | [] => .done []
  | e :: es => do
    let d ← value e
    let ds ← values es
    .done (d :: ds)

end

/-- The word of a buffer that an expression points to. -/
def place : Expr → Run (Resource × Int)
  | index e i =>
    match e.buffer? with
    | some r => do
      let d ← i.value F scope
      let k ← d.index
      .done (r, k)
    | none => .stuck
  | _ => .stuck

/-- What an expression stands for; an atomic call has to be the whole of it. -/
def perform (spurious : Bool) (memory : Memory) : Expr → Run (Memory × Held)
  | call (.func .atomicLoad) [address target] => do
    let p ← target.place F scope
    let w ← memory.read p.1 p.2
    .done (memory, .datum (.int w))
  | call (.func .atomicCompareExchangeWeak) [address target, expected, wanted] => do
    let p ← target.place F scope
    match ← expected.value F scope, ← wanted.value F scope with
    | .int old, .int new => do
      let w ← memory.read p.1 p.2
      if w = old ∧ spurious = false then
        let memory ← memory.write p.1 p.2 new
        .done (memory, .outcome w true)
      else .done (memory, .outcome w false)
    | _, _ => .stuck
  | e => e.value F scope >>= fun d => .done (memory, .datum d)

variable {F scope} {c : Cell}

theorem value_binary {op : Operator} {lhs rhs : Expr} {a b : Datum}
    (ha : lhs.value F scope = .done a) (hb : rhs.value F scope = .done b)
    (hop : op.shortcut a = none) : (binary op lhs rhs).value F scope = F.operator op a b := by
  simp [value, ha, hb, hop]

theorem value_call_one {callee : Callee} {e : Expr} {d : Datum} (h : e.value F scope = .done d) :
    (call callee [e]).value F scope = F.call callee [d] := by
  simp [value, values, h]

theorem value_call_two {callee : Callee} {e e' : Expr} {d d' : Datum}
    (h : e.value F scope = .done d) (h' : e'.value F scope = .done d') :
    (call callee [e, e']).value F scope = F.call callee [d, d'] := by
  simp [value, values, h, h']

mutual

/-- A name that an expression does not mention makes no difference to it. -/
theorem value_cons : ∀ e : Expr, .ident c.name ∉ e.names →
    e.value F (c :: scope) = e.value F scope
  | ident name, h => by
    have hne : c.name ≠ name := fun heq => h (by simp [names, heq])
    simp only [value, Scope.get?_cons_of_ne hne]
  | lit _, _ => rfl
  | neg e, h | bitNot e, h => by simp only [value, value_cons e h]
  | paren e, h => by simpa only [value] using value_cons e h
  | binary op a b, h => by
    simp only [names, mem_append, not_or] at h
    simp only [value, value_cons a h.1, value_cons b h.2]
  | call callee args, h => by
    simp only [names, mem_append, not_or] at h
    simp only [value, values_cons args h.2]
  | select e selector, h => by
    rw [value, value, value_cons e h]
    cases e with
    | ident name =>
      have hne : c.name ≠ name := fun heq => h (by simp [names, heq])
      simp only [part, Scope.get?_cons_of_ne hne]
    | _ => rfl
  | index _ _, _ | address _, _ => rfl

theorem values_cons : ∀ es : List Expr, .ident c.name ∉ namesOf es →
    values F (c :: scope) es = values F scope es
  | [], _ => rfl
  | e :: es, h => by
    simp only [namesOf, mem_append, not_or] at h
    simp only [values, value_cons e h.1, values_cons es h.2]

end

/-- Other names do not matter for a value. -/
theorem value_append {e : Expr} {cells : Scope} (h : ∀ c ∈ cells, .ident c.name ∉ e.names) :
    e.value F (cells ++ scope) = e.value F scope := by
  induction cells with
  | nil => rfl
  | cons c cells ih =>
    obtain ⟨hc, hcells⟩ := forall_mem_cons.1 h
    rw [← ih hcells, cons_append, value_cons e hc]

theorem place_append {e : Expr} {cells : Scope} (h : ∀ c ∈ cells, .ident c.name ∉ e.names) :
    e.place F (cells ++ scope) = e.place F scope := by
  cases e with
  | index e i =>
    have hi : ∀ c ∈ cells, .ident c.name ∉ i.names := fun c hc hmem =>
      h c hc (mem_append_right _ hmem)
    simp only [place, value_append hi]
  | _ => rfl

end Expr

/-- The effect of a line on memory and on the names in scope. -/
def Line.step (F : Floats) (spurious : Bool) (memory : Memory) (scope : Scope) :
    Line → Run (Memory × Flow × Scope)
  | letBind name type value => do
    let (memory, h) ← value.perform F scope spurious memory
    let h ← h.typed type
    .done (memory, .next, ⟨name, false, h⟩ :: scope)
  | declare name type (some value) => do
    let (memory, h) ← value.perform F scope spurious memory
    let h ← h.typed (some type)
    .done (memory, .next, ⟨name, true, h⟩ :: scope)
  | declare name type none => .done (memory, .next, ⟨name, true, .datum type.scalar.zero⟩ :: scope)
  | assign (.ident name) value => do
    let d ← value.value F scope
    let scope ← Run.ofOption (scope.assign name d)
    .done (memory, .next, scope)
  | exitLoop => .done (memory, .exit, scope)
  | nextIteration => .done (memory, .again, scope)
  | assign _ _ | perform _ | discard => .stuck

/-! ## Threads -/

/-- What follows when the code at hand ends.  The depth is the number of names that stay. -/
inductive Continuation where
  /-- The rest behind a body that is entered once. -/
  | after (rest : Code) (depth : Nat)
  /-- The next turn of a loop, and the rest behind it. -/
  | turn (body rest : Code) (depth : Nat)
  deriving Repr

/-- An invocation on its way. -/
structure Thread where
  code : Code
  stack : List Continuation := []
  scope : Scope
  deriving Repr

namespace Thread

/-- Leave the code at hand for what follows it. -/
def unwind (scope : Scope) (flow : Flow) : List Continuation → Run Thread
  | .after rest depth :: stack =>
    match flow with
    | .next => .done ⟨rest, stack, scope.leave depth⟩
    | _ => unwind scope flow stack
  | .turn body rest depth :: stack =>
    match flow with
    | .exit => .done ⟨rest, stack, scope.leave depth⟩
    | _ => .done ⟨body, .turn body rest depth :: stack, scope.leave depth⟩
  | [] =>
    match flow with
    | .next => .done ⟨.done, [], scope⟩
    | _ => .stuck

/-- Enter the body of a branch. -/
def enter (t : Thread) (body rest : Code) : Thread :=
  ⟨body, .after rest t.scope.length :: t.stack, t.scope⟩

/-- One step.  Nothing more happens to an invocation that has ended. -/
def step (F : Floats) (spurious : Bool) (memory : Memory) (t : Thread) : Run (Memory × Thread) :=
  match t.code with
  | .done => do
    let t ← unwind t.scope .next t.stack
    .done (memory, t)
  | .line l rest => do
    let (memory, flow, scope) ← l.step F spurious memory t.scope
    match flow with
    | .next => .done (memory, ⟨rest, t.stack, scope⟩)
    | _ => do
      let t ← unwind scope flow t.stack
      .done (memory, t)
  | .branch c yes rest => do
    match ← c.value F t.scope with
    | .truth true => .done (memory, t.enter yes rest)
    | .truth false => .done (memory, { t with code := rest })
    | _ => .stuck
  | .branchElse c yes no rest => do
    match ← c.value F t.scope with
    | .truth true => .done (memory, t.enter yes rest)
    | .truth false => .done (memory, t.enter no rest)
    | _ => .stuck
  | .loop body rest => .done (memory, ⟨body, .turn body rest t.scope.length :: t.stack, t.scope⟩)
  | .countLoop _ _ _ => .stuck

/-- The invocation has come to the end of its code. -/
def Finished (t : Thread) : Prop := t.code = .done ∧ t.stack = []

end Thread

/-! ## Machines -/

/-- Invocations that share memory. -/
structure Machine (n : Nat) where
  memory : Memory
  threads : Fin n → Thread

namespace Machine

variable {n : Nat} (F : Floats)

/-- A step of invocation `k`. -/
def step (m : Machine n) (k : Fin n) (spurious : Bool) : Run (Machine n) := do
  let (memory, t) ← (m.threads k).step F spurious m.memory
  .done ⟨memory, Function.update m.threads k t⟩

/-- The steps of a schedule: which invocation is next, and whether its exchange just fails. -/
def run : List (Fin n × Bool) → Machine n → Run (Machine n)
  | [], m => .done m
  | (k, spurious) :: rest, m => m.step F k spurious >>= run rest

theorem run_append (first second : List (Fin n × Bool)) (m : Machine n) :
    run F (first ++ second) m = run F first m >>= run F second := by
  induction first generalizing m with
  | nil => rfl
  | cons e first ih =>
    change (m.step F e.1 e.2 >>= run F (first ++ second)) = _
    rw [run, Run.bind_assoc]
    congr
    funext m'
    exact ih m'

/-- Every invocation has come to its end. -/
def Finished (m : Machine n) : Prop := ∀ k, (m.threads k).Finished

end Machine

end WgslKernel
