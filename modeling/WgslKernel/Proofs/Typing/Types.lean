import WgslKernel.Proofs.Scoping.Scope

/-!
# Types in shaders

What the rules of the shader language say about the types of expressions, as far as generated
shaders use them.  An integer without suffix counts as a number of any scalar type; that is the only
expression with more than one type.
-/

namespace WgslKernel

/-! ## Types -/

/-- Types of expressions in a shader. -/
inductive Ty where
  /-- A number, or a vector of numbers. -/
  | data (t : ShaderType)
  /-- A truth value, or a vector of truth values. -/
  | bool (width : Nat)
  /-- A word that is accessed atomically. -/
  | atomicWord
  /-- The words of a buffer. -/
  | words (atomic : Bool)
  | buffer (atomic : Bool)
  /-- Pointer to an atomic word. -/
  | pointer
  /-- Outcome of a compare-exchange. -/
  | exchange
  /-- State of the random-number generator. -/
  | generator
  | stage (members : List StageMember)
  /-- What a call for its effect returns. -/
  | nothing
  deriving DecidableEq

namespace Ty

/-- A signed word. -/
abbrev i32 : Ty := .data ⟨.i32, 1⟩

/-- An unsigned word. -/
abbrev u32 : Ty := .data ⟨.u32, 1⟩

/-- A float. -/
abbrev f32 : Ty := .data ⟨.f32, 1⟩

/-- Type of an element of an array. -/
def element? : Ty → Option Ty
  | words true => some atomicWord
  | words false => some i32
  | _ => none

/-- Type of a member of a structure or vector. -/
def member? : Ty → Selector → Option Ty
  | buffer atomic, .words => some (words atomic)
  | exchange, .exchanged => some (bool 1)
  | exchange, .oldValue => some i32
  | generator, .x | generator, .y | generator, .z | generator, .w => some u32
  | stage members, .stage name =>
    (members.find? fun m => m.name = name).map fun m => data m.type
  | data t, s =>
    if t.width ≠ 1 ∧ (List.range t.width).any (fun k => Selector.component? k = some s) then
      some (data ⟨t.scalar, 1⟩)
    else none
  | _, _ => none

end Ty

/-! ## Overloads -/

namespace Operator

/-- An operator between numbers.  Arithmetic also takes a scalar beside a vector. -/
def onData (op : Operator) (a b : ShaderType) : Option Ty :=
  match op with
  | add | sub | mul | div | rem =>
    if a.scalar ≠ b.scalar then none
    else if a.width = b.width ∨ b.width = 1 then some (.data a)
    else if a.width = 1 then some (.data b)
    else none
  | bitAnd | bitOr | bitXor => if a = b ∧ a.scalar ≠ .f32 then some (.data a) else none
  | shl | shr => if a.scalar ≠ .f32 ∧ b = ⟨.u32, a.width⟩ then some (.data a) else none
  | lt | le | gt | ge | eq | ne => if a = b then some (.bool a.width) else none
  | and | or => none

/-- An operator between truth values. -/
def onBools (op : Operator) (m n : Nat) : Option Ty :=
  match op with
  | eq | ne => if m = n then some (.bool m) else none
  | and | or => if m = 1 ∧ n = 1 then some (.bool 1) else none
  | _ => none

/-- Type of what an operator returns. -/
def result? (op : Operator) : Ty → Ty → Option Ty
  | .data a, .data b => op.onData a b
  | .bool m, .bool n => op.onBools m n
  | _, _ => none

end Operator

/-- Type of what a function returns. -/
def Func.result? : Func → List Ty → Option Ty
  | abs, [.data t] => some (.data t)
  | sign, [.data t] => if t.scalar = .u32 then none else some (.data t)
  | round, [.data t] | floor, [.data t] | ceil, [.data t] | sqrt, [.data t] | sin, [.data t]
  | asin, [.data t] | cos, [.data t] | acos, [.data t] | tan, [.data t] | tanh, [.data t]
  | exp, [.data t] | log, [.data t] | inverseSqrt, [.data t] | dpdx, [.data t] | dpdy, [.data t] =>
    if t.scalar = .f32 then some (.data t) else none
  | atan2, [.data a, .data b] | pow, [.data a, .data b] =>
    if a = b ∧ a.scalar = .f32 then some (.data a) else none
  | max, [.data a, .data b] | min, [.data a, .data b] => if a = b then some (.data a) else none
  | select, [.data a, .data b, .bool n] =>
    if a = b ∧ (n = 1 ∨ n = a.width) then some (.data a) else none
  | atomicLoad, [.pointer] => some .i32
  | atomicStore, [.pointer, t] => if t = .i32 then some .nothing else none
  | atomicAdd, [.pointer, t] | atomicSub, [.pointer, t] | atomicMax, [.pointer, t]
  | atomicMin, [.pointer, t] => if t = .i32 then some .i32 else none
  | atomicCompareExchangeWeak, [.pointer, a, b] =>
    if a = .i32 ∧ b = .i32 then some .exchange else none
  | randU32, [] => some .u32
  | randF32, [] => some .f32
  | _, _ => none

/-- Type of what a call returns.  A constructor converts each component of its argument, spreads a
scalar over a vector, or takes the components of a vector one by one. -/
def Callee.result? : Callee → List Ty → Option Ty
  | func f, ts => f.result? ts
  | construct t, [.data a] =>
    if a.width = t.width ∨ a = ⟨t.scalar, 1⟩ then some (.data t) else none
  | construct t, [.bool n] => if n = t.width then some (.data t) else none
  | construct t, ts =>
    if ts = List.replicate t.width (.data ⟨t.scalar, 1⟩) then some (.data t) else none
  | bitcast t, [.data a] => if a.width = t.width then some (.data t) else none
  | bitcast _, _ => none

/-- Whether a literal is of a type. -/
def Literal.fits : Literal → ShaderType → Bool
  | int _, t => t = ⟨.i32, 1⟩
  | uint _, t | pattern _, t => t = ⟨.u32, 1⟩
  | float _, t => t = ⟨.f32, 1⟩
  | abstract _, t => t.width = 1

/-! ## Expressions -/

/-- What a declaration says of a name. -/
structure Entry where
  type : Ty
  /-- Whether the name stands for a place that can be written. -/
  writable : Bool := false
  deriving DecidableEq

/-- The declarations in scope. -/
abbrev Env := List (Ident × Entry)

/-- The name at the start of a place. -/
def Expr.root? : Expr → Option Ident
  | ident n => some n
  | select e _ | index e _ => e.root?
  | _ => none

/-- An expression is of a type. -/
inductive HasType (Γ : Env) : Expr → Ty → Prop where
  | ident {n : Ident} {t : Ty} {w : Bool} (h : (n, ⟨t, w⟩) ∈ Γ) : HasType Γ (.ident n) t
  | lit {l : Literal} {t : ShaderType} (h : l.fits t = true) : HasType Γ (.lit l) (.data t)
  | neg {e : Expr} {t : ShaderType} (h : HasType Γ e (.data t)) (ht : t.scalar ≠ .u32) :
    HasType Γ (.neg e) (.data t)
  | bitNot {e : Expr} {t : ShaderType} (h : HasType Γ e (.data t)) (ht : t.scalar ≠ .f32) :
    HasType Γ (.bitNot e) (.data t)
  | binary {op : Operator} {e₁ e₂ : Expr} {t₁ t₂ t : Ty} (h₁ : HasType Γ e₁ t₁)
    (h₂ : HasType Γ e₂ t₂) (ht : op.result? t₁ t₂ = some t) : HasType Γ (.binary op e₁ e₂) t
  | paren {e : Expr} {t : Ty} (h : HasType Γ e t) : HasType Γ (.paren e) t
  | call {callee : Callee} {args : List Expr} {ts : List Ty} {t : Ty}
    (hlength : args.length = ts.length) (hargs : ∀ p ∈ args.zip ts, HasType Γ p.1 p.2)
    (ht : callee.result? ts = some t) : HasType Γ (.call callee args) t
  | select {e : Expr} {t t' : Ty} {s : Selector} (h : HasType Γ e t) (ht : t.member? s = some t') :
    HasType Γ (.select e s) t'
  | index {e i : Expr} {t t' : Ty} {s : Scalar} (h : HasType Γ e t)
    (hi : HasType Γ i (.data ⟨s, 1⟩)) (hs : s ≠ .f32) (ht : t.element? = some t') :
    HasType Γ (.index e i) t'
  | address {e : Expr} {n : Ident} {t : Ty} (h : HasType Γ e .atomicWord) (hroot : e.root? = some n)
    (hn : (n, ⟨t, true⟩) ∈ Γ) : HasType Γ (.address e) .pointer

/-- An expression is a place of a type that can be written. -/
def Assignable (Γ : Env) (e : Expr) (t : Ty) : Prop :=
  HasType Γ e t ∧ ∃ n t', e.root? = some n ∧ (n, ⟨t', true⟩) ∈ Γ

section

variable {Γ Γ' : Env}

/-- More declarations take no type away. -/
theorem HasType.mono {e : Expr} {t : Ty} (h : HasType Γ e t) (hsub : Γ ⊆ Γ') : HasType Γ' e t := by
  induction h with
  | ident h => exact .ident (hsub h)
  | lit h => exact .lit h
  | neg _ ht ih => exact .neg ih ht
  | bitNot _ ht ih => exact .bitNot ih ht
  | binary _ _ ht ih₁ ih₂ => exact .binary ih₁ ih₂ ht
  | paren _ ih => exact .paren ih
  | call hlength _ ht ih => exact .call hlength ih ht
  | select _ ht ih => exact .select ih ht
  | index _ _ hs ht ih ihi => exact .index ih ihi hs ht
  | address _ hroot hn ih => exact .address ih hroot (hsub hn)

/-- More declarations do no harm. -/
theorem Assignable.mono {e : Expr} {t : Ty} (h : Assignable Γ e t) (hsub : Γ ⊆ Γ') :
    Assignable Γ' e t := by
  obtain ⟨htype, n, t', hroot, hn⟩ := h
  exact ⟨htype.mono hsub, n, t', hroot, hsub hn⟩

/-! ### Calls by the number of their arguments -/

namespace HasType

variable {callee : Callee} {e₁ e₂ e₃ : Expr} {t₁ t₂ t₃ t : Ty}

theorem call_nil (ht : callee.result? [] = some t) : HasType Γ (.call callee []) t :=
  .call rfl (by simp) ht

theorem call_one (h₁ : HasType Γ e₁ t₁) (ht : callee.result? [t₁] = some t) :
    HasType Γ (.call callee [e₁]) t :=
  .call rfl (by simpa using h₁) ht

theorem call_two (h₁ : HasType Γ e₁ t₁) (h₂ : HasType Γ e₂ t₂)
    (ht : callee.result? [t₁, t₂] = some t) : HasType Γ (.call callee [e₁, e₂]) t :=
  .call rfl (by simpa using ⟨h₁, h₂⟩) ht

theorem call_three (h₁ : HasType Γ e₁ t₁) (h₂ : HasType Γ e₂ t₂) (h₃ : HasType Γ e₃ t₃)
    (ht : callee.result? [t₁, t₂, t₃] = some t) : HasType Γ (.call callee [e₁, e₂, e₃]) t :=
  .call rfl (by simpa using ⟨h₁, h₂, h₃⟩) ht

end HasType

end

/-! ## Code -/

/-- A line is well typed, and declares the names `Δ`. -/
inductive Line.Typed (Γ : Env) : Line → Env → Prop where
  | letBind {n : Ident} {t : ShaderType} {e : Expr} (h : HasType Γ e (.data t)) :
    Typed Γ (.letBind n (some t) e) [(n, ⟨.data t, false⟩)]
  | letInferred {n : Ident} {t : Ty} {e : Expr} (h : HasType Γ e t) :
    Typed Γ (.letBind n none e) [(n, ⟨t, false⟩)]
  | declare {n : Ident} {t : ShaderType} : Typed Γ (.declare n t none) [(n, ⟨.data t, true⟩)]
  | declareAs {n : Ident} {t : ShaderType} {e : Expr} (h : HasType Γ e (.data t)) :
    Typed Γ (.declare n t (some e)) [(n, ⟨.data t, true⟩)]
  | assign {target e : Expr} {t : ShaderType} (htarget : Assignable Γ target (.data t))
    (h : HasType Γ e (.data t)) : Typed Γ (.assign target e) []
  | perform {e : Expr} (h : HasType Γ e .nothing) : Typed Γ (.perform e) []
  | exitLoop : Typed Γ .exitLoop []
  | nextIteration : Typed Γ .nextIteration []
  | discard : Typed Γ .discard []

/-- The names that the header of a loop declares for its body. -/
def LoopHeader.env (h : LoopHeader) : Env := [(h.counter, ⟨.i32, true⟩)]

/-- Code is well typed, and declares the names `Δ` for the code that follows. -/
inductive Code.Typed : Env → Code → Env → Prop where
  | done {Γ : Env} : Typed Γ .done []
  | line {Γ Δ Δ' : Env} {l : Line} {rest : Code} (hl : l.Typed Γ Δ)
    (hrest : Typed (Δ ++ Γ) rest Δ') : Typed Γ (.line l rest) (Δ' ++ Δ)
  | branch {Γ Δ Δ' : Env} {c : Expr} {yes rest : Code} (hc : HasType Γ c (.bool 1))
    (hyes : Typed Γ yes Δ') (hrest : Typed Γ rest Δ) : Typed Γ (.branch c yes rest) Δ
  | branchElse {Γ Δ Δ' Δ'' : Env} {c : Expr} {yes no rest : Code} (hc : HasType Γ c (.bool 1))
    (hyes : Typed Γ yes Δ') (hno : Typed Γ no Δ'') (hrest : Typed Γ rest Δ) :
    Typed Γ (.branchElse c yes no rest) Δ
  | loop {Γ Δ Δ' : Env} {body rest : Code} (hbody : Typed Γ body Δ') (hrest : Typed Γ rest Δ) :
    Typed Γ (.loop body rest) Δ
  | countLoop {Γ Δ Δ' : Env} {h : LoopHeader} {body rest : Code} (hstart : HasType Γ h.start .i32)
    (hstop : HasType (h.env ++ Γ) h.stop .i32) (hstep : HasType (h.env ++ Γ) h.step .i32)
    (hbody : Typed (h.env ++ Γ) body Δ') (hrest : Typed Γ rest Δ) :
    Typed Γ (.countLoop h body rest) Δ

/-- **Well-typed pieces of code make up well-typed code.** -/
theorem Code.Typed.append {Γ Δ Δ' : Env} {c d : Code} (hc : c.Typed Γ Δ)
    (hd : d.Typed (Δ ++ Γ) Δ') : (c ++ d).Typed Γ (Δ' ++ Δ) := by
  induction hc with
  | done => simpa using hd
  | @line Γ Δ₁ Δ₂ l rest hl _ ih =>
    rw [← List.append_assoc]
    exact .line hl (ih (by rwa [← List.append_assoc]))
  | branch hcond hyes _ _ ih => exact .branch hcond hyes (ih hd)
  | branchElse hcond hyes hno _ _ _ ih => exact .branchElse hcond hyes hno (ih hd)
  | loop hbody _ _ ih => exact .loop hbody (ih hd)
  | countLoop hstart hstop hstep hbody _ _ ih =>
    exact .countLoop hstart hstop hstep hbody (ih hd)

/-! ## Shaders -/

/-- The variable of a buffer. -/
def Global.entry? (g : Global) : Option (Ident × Entry) :=
  match g.declaration with
  | .buffer atomic _ writable => some (.resource g.binding.resource, ⟨.buffer atomic, writable⟩)
  | .handle _ => none

namespace Shader

/-- The parameters of the entry point, and the variable for its result. -/
def entryEnv (s : Shader) : Env :=
  match s.stage with
  | .compute =>
    [(.globalInvocationId, ⟨.data ⟨.u32, 3⟩, false⟩), (.numWorkgroups, ⟨.data ⟨.u32, 3⟩, false⟩)]
  | _ =>
    (if s.layout.inputs.isEmpty then [] else [(.stageInput, ⟨.stage s.layout.inputs, false⟩)]) ++
      if s.returnsOutput then [(.stageOutput, ⟨.stage s.layout.outputs, true⟩)] else []

/-- What is declared ahead of the code, textures and samplers apart. -/
def env (s : Shader) : Env :=
  s.globals.filterMap Global.entry? ++
    (if s.random then [(.randState, ⟨.generator, true⟩)] else []) ++ s.entryEnv

/-- Every name has one declaration, in scope where it is used, and every line fits the types. -/
structure WellTyped (s : Shader) : Prop where
  names : s.WellScoped
  code : ∃ Δ, (s.prologue ++ s.body).Typed s.env Δ

end Shader

end WgslKernel
