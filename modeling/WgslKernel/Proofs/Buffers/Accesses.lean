import WgslKernel.Proofs.Codegen.Operands
import WgslKernel.Proofs.Interface.Accesses
import WgslKernel.Proofs.Semantics.Shader

/-!
# Words that a shader touches

A statement touches buffers that it declares to use.  The four buffers whose size is fixed are only
ever touched at constant indices, and which ones is known from the statement alone (`Addressed`).
-/

namespace WgslKernel

open List

/-! ## Accesses -/

namespace Expr

mutual

/-- The words that an expression touches. -/
def accesses : Expr → List (Resource × Expr)
  | ident _ | lit _ => []
  | neg e | bitNot e | paren e | address e | select e _ => e.accesses
  | binary _ lhs rhs => lhs.accesses ++ rhs.accesses
  | call _ args => accessesOf args
  | index e i => (e.buffer?.map fun r => (r, i)).toList ++ (e.accesses ++ i.accesses)

/-- The words that the arguments of a call touch. -/
def accessesOf : List Expr → List (Resource × Expr)
  | [] => []
  | e :: es => e.accesses ++ accessesOf es

end

theorem resource_mem_names {e : Expr} {r : Resource} (h : e.buffer? = some r) :
    .ident (.resource r) ∈ e.names := by
  unfold buffer? at h
  split at h
  · cases h
    exact mem_cons_self
  · cases h

mutual

/-- A buffer that is touched is named. -/
theorem mem_names_of_access {a : Resource × Expr} :
    ∀ e : Expr, a ∈ e.accesses → .ident (.resource a.1) ∈ e.names
  | ident _, h | lit _, h => absurd h not_mem_nil
  | neg e, h | bitNot e, h | paren e, h | address e, h | select e _, h =>
    mem_names_of_access e h
  | binary _ lhs rhs, h => by
    rcases mem_append.1 h with h | h
    · exact mem_append_left _ (mem_names_of_access lhs h)
    · exact mem_append_right _ (mem_names_of_access rhs h)
  | call _ args, h => mem_append_right _ (mem_namesOf_of_access args h)
  | index e i, h => by
    rcases mem_append.1 h with h | h
    · obtain ⟨r, hr, rfl⟩ := Option.map_eq_some_iff.1 (Option.mem_toList.1 h)
      exact mem_append_left _ (resource_mem_names hr)
    · rcases mem_append.1 h with h | h
      · exact mem_append_left _ (mem_names_of_access e h)
      · exact mem_append_right _ (mem_names_of_access i h)

theorem mem_namesOf_of_access {a : Resource × Expr} :
    ∀ es : List Expr, a ∈ accessesOf es → .ident (.resource a.1) ∈ namesOf es
  | [], h => absurd h not_mem_nil
  | e :: es, h => by
    rcases mem_append.1 h with h | h
    · exact mem_append_left _ (mem_names_of_access e h)
    · exact mem_append_right _ (mem_namesOf_of_access es h)

end

attribute [simp] accesses accessesOf

@[simp] theorem accesses_int (v : Int) : (int v).accesses = [] := rfl

@[simp] theorem accesses_func (f : Func) (args : List Expr) :
    (func f args).accesses = accessesOf args := rfl

@[simp] theorem accesses_convert (type : ShaderType) (e : Expr) :
    (convert type e).accesses = e.accesses := append_nil _

@[simp] theorem accesses_bitcast (type : ShaderType) (e : Expr) :
    (bitcast type e).accesses = e.accesses := append_nil _

@[simp] theorem accesses_word (r : Resource) (i : Expr) :
    (word r i).accesses = (r, i) :: i.accesses := rfl

end Expr

/-- The words that a line touches. -/
def Line.accesses : Line → List (Resource × Expr)
  | letBind _ _ e | declare _ _ (some e) | perform e => e.accesses
  | assign target value => target.accesses ++ value.accesses
  | declare _ _ none | exitLoop | nextIteration | discard => []

theorem Line.mem_names_of_access {l : Line} {a : Resource × Expr} (h : a ∈ l.accesses) :
    .ident (.resource a.1) ∈ l.names := by
  cases l with
  | letBind | perform => exact Expr.mem_names_of_access _ h
  | declare _ _ value =>
    cases value with
    | none => cases h
    | some e => exact Expr.mem_names_of_access _ h
  | assign =>
    rcases mem_append.1 h with h | h
    · exact mem_append_left _ (Expr.mem_names_of_access _ h)
    · exact mem_append_right _ (Expr.mem_names_of_access _ h)
  | exitLoop | nextIteration | discard => cases h

/-- The words that the head of a loop touches. -/
def LoopHeader.accesses (h : LoopHeader) : List (Resource × Expr) :=
  h.start.accesses ++ (h.stop.accesses ++ h.step.accesses)

theorem LoopHeader.mem_names_of_access {h : LoopHeader} {a : Resource × Expr}
    (ha : a ∈ h.accesses) : .ident (.resource a.1) ∈ h.names := by
  simp only [accesses, names, mem_append] at ha ⊢
  rcases ha with ha | ha | ha
  · exact .inl (.inl (Expr.mem_names_of_access _ ha))
  · exact .inl (.inr (Expr.mem_names_of_access _ ha))
  · exact .inr (Expr.mem_names_of_access _ ha)

namespace Code

/-- The words that code touches, at any depth. -/
def accesses : Code → List (Resource × Expr)
  | done => []
  | line l rest => l.accesses ++ rest.accesses
  | branch c yes rest => c.accesses ++ (yes.accesses ++ rest.accesses)
  | branchElse c yes no rest =>
    c.accesses ++ (yes.accesses ++ (no.accesses ++ rest.accesses))
  | loop body rest => body.accesses ++ rest.accesses
  | countLoop h body rest => h.accesses ++ (body.accesses ++ rest.accesses)

@[simp] theorem accesses_append (c d : Code) : (c ++ d).accesses = c.accesses ++ d.accesses := by
  induction c <;> simp_all [accesses]

/-- The lines of code, at any depth.  A condition stands as the line that evaluates it. -/
def lines : Code → List Line
  | done => []
  | line l rest => l :: rest.lines
  | branch c yes rest => .perform c :: (yes.lines ++ rest.lines)
  | branchElse c yes no rest => .perform c :: (yes.lines ++ (no.lines ++ rest.lines))
  | loop body rest => body.lines ++ rest.lines
  | countLoop h body rest => h.first :: .perform h.test :: h.update :: (body.lines ++ rest.lines)

@[simp] theorem lines_append (c d : Code) : (c ++ d).lines = c.lines ++ d.lines := by
  induction c <;> simp_all [lines]

@[simp] theorem lines_ofLines (ls : List Line) : (ofLines ls).lines = ls := by
  induction ls with
  | nil => rfl
  | cons l ls ih => simp [ofLines, lines, ih]

/-- Code touches what its lines touch. -/
theorem mem_accesses {c : Code} {a : Resource × Expr} :
    a ∈ c.accesses ↔ ∃ l ∈ c.lines, a ∈ l.accesses := by
  induction c with
  | done => simp [accesses, lines]
  | line | branch | branchElse | loop =>
    simp_all [accesses, lines, Line.accesses, or_and_right, exists_or]
  | countLoop h body rest ihBody ihRest =>
    have hheader : a ∈ h.accesses ↔
        a ∈ h.first.accesses ∨ a ∈ (Line.perform h.test).accesses ∨ a ∈ h.update.accesses := by
      simp [LoopHeader.accesses, LoopHeader.first, LoopHeader.test, LoopHeader.update,
        Line.accesses]
    simp_all [accesses, lines, or_and_right, exists_or, or_assoc]

/-- **A buffer that is touched is in scope.** -/
theorem mem_scope_of_access {c : Code} {scope : List Name} (h : c.Scoped scope)
    {a : Resource × Expr} (ha : a ∈ c.accesses) :
    .ident (.resource a.1) ∈ scope ∨ .ident (.resource a.1) ∈ c.declared := by
  induction c generalizing scope with
  | done => cases ha
  | line l rest ih =>
    rcases mem_append.1 ha with ha | ha
    · exact .inl (h.1 (l.mem_names_of_access ha))
    · rcases ih h.2 ha with hin | hin
      · exact (mem_append.1 hin).elim (fun hin => .inr (mem_append_left _ hin)) .inl
      · exact .inr (mem_append_right _ hin)
  | branch c yes rest ihYes ihRest =>
    simp only [accesses, declared, mem_append] at ha ⊢
    rcases ha with ha | ha | ha
    · exact .inl (h.1 (c.mem_names_of_access ha))
    · exact (ihYes h.2.1 ha).imp id .inl
    · exact (ihRest h.2.2 ha).imp id .inr
  | branchElse c yes no rest ihYes ihNo ihRest =>
    simp only [accesses, declared, mem_append] at ha ⊢
    rcases ha with ha | ha | ha | ha
    · exact .inl (h.1 (c.mem_names_of_access ha))
    · exact (ihYes h.2.1 ha).imp id .inl
    · exact (ihNo h.2.2.1 ha).imp id fun hin => .inr (.inl hin)
    · exact (ihRest h.2.2.2 ha).imp id fun hin => .inr (.inr hin)
  | loop body rest ihBody ihRest =>
    simp only [accesses, declared, mem_append] at ha ⊢
    rcases ha with ha | ha
    · exact (ihBody h.1 ha).imp id .inl
    · exact (ihRest h.2 ha).imp id .inr
  | countLoop header body rest ihBody ihRest =>
    simp only [accesses, declared, mem_append, mem_cons] at ha ⊢
    rcases ha with ha | ha | ha
    · exact .inl (h.1 (header.mem_names_of_access ha))
    · rcases ihBody h.2.1 ha with hin | hin
      · exact (mem_cons.1 hin).elim (fun hin => .inr (.inl hin)) .inl
      · exact .inr (.inr (.inl hin))
    · exact (ihRest h.2.2 ha).imp id fun hin => .inr (.inr hin)

end Code

/-- The buffers of fixed size: temporaries, plain and atomic, arguments and return values. -/
def Resource.isBlock (r : Resource) : Bool :=
  match r.kind with
  | .globalTmps | .globalTmpsAtomic | .args | .rets => true
  | _ => false

/-- The place that a statement works on, if that can be a temporary. -/
def Kind.target? : Kind → Option StmtId
  | temporaryLoad ptr | temporaryStore ptr _ | atomic _ ptr _ | atomicLoad ptr
  | atomicStore ptr _ => some ptr
  | _ => none

namespace Codegen

variable {ctx : Context} {st st' : State} {values : Values} {s : Stmt} {l : Lowering}
  {o : Outline} {code : Code} {e : Expr} {r : Resource} {i : Expr}

/-- Why a statement touches word `k` of a block: a temporary, an argument, or a return value. -/
inductive Addressed (ctx : Context) (s : Stmt) : Resource → Nat → Prop where
  | temporary {r : Resource} {ptr : StmtId} {ty : Prim} {k : Nat}
    (hr : r = .globalTmps ∨ r = .globalTmpsAtomic) (htarget : s.kind.target? = some ptr)
    (hkind : ctx.module.kind? ptr = some (.temporary ty (4 * k)))
    (hin : 4 * k + 4 ≤ ctx.config.globalTmpsBytes) : Addressed ctx s r k
  | arg {ty : Prim} {k : Nat} (hkind : s.kind = .argLoad ty k)
    (hin : (k + 1) * 4 ≤ ctx.signature.argBytes) : Addressed ctx s .args k
  | ret {operands : List StmtId} {k : Nat} (hkind : s.kind = .ret operands)
    (hk : k < operands.length) (hin : operands.length * 4 ≤ ctx.signature.retBytes) :
    Addressed ctx s .rets k

/-! ## Operands -/

/-- No operand names a resource. -/
theorem Operand.notMem_names (h : Operand e) : .ident (.resource r) ∉ e.names := by
  cases h <;> simp

/-- An operand touches no buffer. -/
theorem Operand.accesses (h : Operand e) : e.accesses = [] := by
  refine eq_nil_iff_forall_not_mem.2 fun a ha => ?_
  exact h.notMem_names (Expr.mem_names_of_access e ha)

/-- An entry of the table is an operand, and that of a temporary is the number of its word. -/
def Slotted (ctx : Context) (x : StmtId) (v : Value) : Prop :=
  Operand v.expr ∧ ∀ ty offset, ctx.module.kind? x = some (.temporary ty offset) →
    ∃ k : Nat, v = ⟨.lit (.abstract k), .ofPrim ty⟩ ∧ offset = 4 * k ∧
      offset + 4 ≤ ctx.config.globalTmpsBytes

/-- What a temporary is lowered to. -/
theorem Lowers.temporaryWord {ty : Prim} {offset : Nat} (h : Lowers ctx values s l)
    (hkind : s.kind = .temporary ty offset) :
    ∃ k, temporaryWord ctx.config s.id offset = .ok k ∧
      l = .standIn (.lit (.abstract k)) (.ofPrim ty) := by
  cases h with
  | temporary hk _ hword =>
    rw [hk] at hkind
    cases hkind
    exact ⟨_, hword, rfl⟩
  | const hk | gridIndex hk | counter hk | argLoad hk | rand hk | unary hk | binary hk
  | exitLoop hk | nextIteration hk | alloca hk | localLoad hk | localStore hk | globalPtr hk
  | globalLoad hk | globalStore hk | temporaryLoad hk | temporaryStore hk | atomicInt hk
  | atomicFloat hk | atomicLoad hk | atomicStore hk | vertexInput hk | vertexOutput hk
  | fragmentInput hk | vertexIndex hk | instanceIndex hk | fragCoord hk | position hk | color hk
  | fragDepth hk | derivative hk | discard hk | sample hk | sampleLod hk | textureLoad hk
  | textureStore hk | extract hk | ret hk =>
    rw [hk] at hkind
    cases hkind

/-- Temporaries stand for the number of their word. -/
theorem yields_slotted (hfound : ∀ s ∈ o.stmts, ctx.module.stmts[s.id]? = some s) :
    Yields ctx o (Slotted ctx) := by
  intro s hs values l v hl hv
  refine ⟨(hl.named hv).operand, fun ty offset hkind => ?_⟩
  rw [Module.kind?, hfound s hs, Option.map_some, Option.some.injEq] at hkind
  obtain ⟨k, hword, rfl⟩ := hl.temporaryWord hkind
  cases hv
  exact ⟨k, rfl, temporaryWord_eq_ok hword⟩

/-- What the pointer of a temporary is read as. -/
theorem Values.Entries.temporary {user ptr : StmtId} {v : Value} {ty : Prim} {offset : Nat}
    (h : values.Entries (Slotted ctx)) (hkind : ctx.module.kind? ptr = some (.temporary ty offset))
    (hv : ctx.value values user ptr = .ok v) :
    ∃ k : Nat, v = ⟨.lit (.abstract k), .ofPrim ty⟩ ∧ offset = 4 * k ∧
      offset + 4 ≤ ctx.config.globalTmpsBytes := by
  rcases value_eq_ok.1 hv with hv | ⟨-, c, hc, -⟩
  · exact (h ptr v hv).2 ty offset hkind
  · rw [hkind] at hc
    cases hc

theorem Values.Entries.operand {user x : StmtId} {v : Value} (h : values.Entries (Slotted ctx))
    (hv : ctx.value values user x = .ok v) : Operand v.expr :=
  Values.Entries.value (P := fun _ v => Operand v.expr) (fun x v hx => (h x v hx).1)
    (fun c _ => .const c) hv

theorem temporarySlot_cases {user ptr : StmtId} {slot : Value}
    (h : temporarySlot ctx values user ptr = .ok slot) :
    ∃ ty offset, ctx.module.kind? ptr = some (.temporary ty offset) := by
  obtain ⟨kind, hkind, h⟩ := bind_eq_ok.1 h
  rw [kindOf_eq_ok] at hkind
  split at h
  · exact ⟨_, _, hkind⟩
  · simp at h

/-! ## Statements -/

/-- **A statement touches buffers that it uses.** -/
theorem Lowers.use_of_access (h : Lowers ctx values s l) (hvalues : values.Operands)
    {a : Resource × Expr} (ha : a ∈ l.code.accesses) : ∃ u ∈ l.uses, u.resource = a.1 := by
  have hscoped : l.code.Scoped
      (.ident .stageInput :: .ident .stageOutput :: namesAt ctx values s l) := by
    refine h.scoped ⟨fun x hx v hv => ?_, fun n hn => ?_, fun _ _ _ => by simp⟩
    · exact fun n hn => mem_cons_of_mem _ (mem_cons_of_mem _ (names_subset_namesAt hx hv hn))
    · cases n with
      | ident n =>
        cases n with
        | resource r =>
          obtain ⟨u, hu, rfl⟩ := hn
          simp only [namesAt, mem_cons, mem_append, mem_map]
          exact .inr (.inr (.inl (.inr ⟨u, hu, rfl⟩)))
        | stageInput | stageOutput => simp
        | _ => cases hn
      | helper f => rcases Func.eq_of_isHelper hn.1 with rfl | rfl <;> simp [namesAt]
      | _ => cases hn
  rcases Code.mem_scope_of_access hscoped ha with hin | hin
  · simp only [namesAt, mem_cons, mem_append, mem_map, mem_flatMap,
      Name.ident.injEq, reduceCtorEq, false_or, or_false, not_mem_nil] at hin
    rcases hin with ⟨x, -, hx⟩ | ⟨u, hu, heq⟩
    · cases hv : ctx.value values s.id x with
      | error e => simp [hv, Except.toOption] at hx
      | ok v =>
        simp only [hv, Except.toOption, Option.map_some, Option.getD_some] at hx
        exact absurd hx (hvalues.value hv).notMem_names
    · exact ⟨u, hu, Ident.resource.inj heq⟩
  · have howner := h.tidy.owned _ hin
    cases howner

@[simp] theorem accesses_fromWord (e : Expr) (ty : Prim) :
    (fromWord e ty).accesses = e.accesses := by
  cases ty <;> simp [fromWord]

@[simp] theorem accesses_toWord (e : Expr) (ty : Prim) : (toWord e ty).accesses = e.accesses := by
  cases ty <;> simp [toWord]

theorem accesses_combine (op : AtomicOp) (a b : Expr) :
    (combine op a b).accesses = a.accesses ++ b.accesses := by
  cases op <;> simp [combine]

/-- The loop that exchanges floats touches its target only. -/
theorem eq_of_mem_exchangeLoop {id : StmtId} {op : AtomicOp} {operand : Expr} {a : Resource × Expr}
    (hi : i.accesses = []) (hoperand : operand.accesses = [])
    (ha : a ∈ (exchangeLoop id op (.word r i) operand).accesses) : a = (r, i) := by
  simpa [exchangeLoop, Code.accesses, Line.accesses, accesses_combine, hi, hoperand] using ha

/-- The return values are stored in words that follow one another. -/
theorem of_mem_returnLines {words : List Expr} (hwords : ∀ e ∈ words, e.accesses = []) {j : Nat}
    {a : Resource × Expr} (ha : a ∈ (Code.ofLines (returnLines j words)).accesses) :
    ∃ k : Nat, a = (.rets, .lit (.abstract k)) ∧ k < j + words.length := by
  induction words generalizing j with
  | nil => cases ha
  | cons e es ih =>
    obtain ⟨he, hes⟩ := forall_mem_cons.1 hwords
    simp only [returnLines, Code.ofLines, Code.accesses, Line.accesses, Expr.accesses_word,
      Expr.accesses, he, append_nil, mem_append, mem_singleton] at ha
    rcases ha with rfl | ha
    · exact ⟨j, rfl, by simp⟩
    · obtain ⟨k, rfl, hk⟩ := ih hes ha
      exact ⟨k, rfl, by simp only [length_cons]; omega⟩

/-- Returned words touch no buffer. -/
theorem operandWords_accesses {xs : List StmtId} {words : List Expr}
    (hvalues : values.Entries (Slotted ctx)) (h : operandWords ctx values s.id xs = .ok words) :
    words.length = xs.length ∧ ∀ e ∈ words, e.accesses = [] := by
  induction xs generalizing words with
  | nil =>
    cases h
    simp
  | cons x xs ih =>
    obtain ⟨v, hv, h⟩ := bind_eq_ok.1 h
    obtain ⟨⟨⟩, -, h⟩ := bind_eq_ok.1 h
    obtain ⟨ws, hws, h⟩ := bind_eq_ok.1 h
    cases h
    obtain ⟨hlength, haccesses⟩ := ih hws
    refine ⟨by simp [hlength], forall_mem_cons.2 ⟨?_, haccesses⟩⟩
    simpa using (hvalues.operand (scalar_eq_ok.1 hv).1).accesses

/-- A statement that works on a temporary, with the word that the table has for it. -/
theorem addressed_temporary {ptr : StmtId} {v : Value} {ty : Prim} {offset : Nat}
    (hvalues : values.Entries (Slotted ctx)) (hr : r = .globalTmps ∨ r = .globalTmpsAtomic)
    (htarget : s.kind.target? = some ptr)
    (hkind : ctx.module.kind? ptr = some (.temporary ty offset))
    (hv : ctx.value values s.id ptr = .ok v) :
    ∃ k : Nat, v.expr = .lit (.abstract k) ∧ Addressed ctx s r k := by
  obtain ⟨k, rfl, rfl, hin⟩ := hvalues.temporary hkind hv
  exact ⟨k, rfl, .temporary hr htarget hkind hin⟩

/-- The word of an atomic is that of a field, or of the temporary that the statement works on. -/
theorem addressed_atomic {ptr : StmtId} {write : Bool} {target : AtomicTarget}
    (hvalues : values.Entries (Slotted ctx)) (hptr : s.kind.target? = some ptr)
    (h : atomicTarget ctx values s.id ptr write = .ok target) :
    ∃ (r : Resource) (v : Value), target.word = .word r v.expr ∧ Operand v.expr ∧
      (r.isBlock = true → ∃ k : Nat, v.expr = .lit (.abstract k) ∧ Addressed ctx s r k) := by
  obtain ⟨-, v, hv, ⟨f, indices, offset, -, -, rfl⟩ | ⟨ty, offset, hkind, rfl⟩⟩ :=
    atomicTarget_cases h
  · exact ⟨_, v, rfl, hvalues.operand hv, fun hr => by cases hr⟩
  · exact ⟨_, v, rfl, hvalues.operand hv,
      fun _ => addressed_temporary hvalues (.inr rfl) hptr hkind hv⟩

/-- **Blocks are touched at constant indices, and which ones follows from the statement.** -/
theorem Lowers.addressed (h : Lowers ctx values s l) (hvalues : values.Entries (Slotted ctx))
    (ha : (r, i) ∈ l.code.accesses) (hr : r.isBlock = true) :
    ∃ k : Nat, i = .lit (.abstract k) ∧ Addressed ctx s r k := by
  have hoperands : values.Operands := fun x v hx => (hvalues x v hx).1
  obtain ⟨u, hu, hur⟩ := h.use_of_access hoperands ha
  have hmem : r ∈ ctx.module.resources s.kind := by
    rw [← h.resources]
    exact mem_map.2 ⟨u, hu, hur⟩
  cases h with
  | argLoad hkind hfits =>
    simp only [Lowering.bound, Code.done_append, Code.accesses, Line.accesses, accesses_fromWord,
      Expr.accesses_word, Expr.accesses, append_nil, mem_singleton] at ha
    cases ha
    exact ⟨_, rfl, .arg hkind hfits⟩
  | rand hkind he =>
    rcases he with rfl | rfl <;> simp [Lowering.bound, Code.accesses, Line.accesses] at ha
  | temporaryLoad hkind hslot =>
    obtain ⟨ty, offset, hptr⟩ := temporarySlot_cases hslot
    have hv := temporarySlot_eq_ok hslot
    simp only [Lowering.bound, Code.done_append, Code.accesses, Line.accesses, accesses_fromWord,
      Expr.accesses_word, (hvalues.operand hv).accesses, append_nil, mem_singleton] at ha
    cases ha
    exact addressed_temporary hvalues (.inl rfl) (by rw [hkind]; rfl) hptr hv
  | temporaryStore hkind _ hslot hv =>
    obtain ⟨ty, offset, hptr⟩ := temporarySlot_cases hslot
    have hslot := temporarySlot_eq_ok hslot
    simp only [Lowering.emit, Code.accesses, Line.accesses, accesses_toWord, Expr.accesses_word,
      (hvalues.operand hslot).accesses, (hvalues.operand hv).accesses, append_nil,
      mem_singleton] at ha
    cases ha
    exact addressed_temporary hvalues (.inl rfl) (by rw [hkind]; rfl) hptr hslot
  | atomicInt hkind htarget hv | atomicStore hkind htarget hv =>
    obtain ⟨q, w, hword, hw, hblock⟩ := addressed_atomic hvalues (by rw [hkind]; rfl) htarget
    have hx := (hvalues.operand hv).accesses
    simp only [Lowering.bound, Lowering.emit, Code.done_append, Code.accesses, Line.accesses,
      accesses_toWord, Expr.accesses_func, Expr.accessesOf, Expr.accesses, hword,
      Expr.accesses_word, hw.accesses, hx, append_nil, mem_singleton] at ha
    cases ha
    exact hblock hr
  | atomicFloat hkind htarget hv =>
    obtain ⟨q, w, hword, hw, hblock⟩ := addressed_atomic hvalues (by rw [hkind]; rfl) htarget
    rw [hword] at ha
    simp only [Lowering.bound, Code.accesses_append, Code.accesses, Line.accesses,
      Expr.accesses_bitcast, Expr.accesses, append_nil] at ha
    cases eq_of_mem_exchangeLoop hw.accesses (hvalues.operand hv).accesses ha
    exact hblock hr
  | atomicLoad hkind htarget =>
    obtain ⟨q, w, hword, hw, hblock⟩ := addressed_atomic hvalues (by rw [hkind]; rfl) htarget
    simp only [Lowering.bound, Code.done_append, Code.accesses, Line.accesses, accesses_fromWord,
      Expr.accesses_func, Expr.accessesOf, Expr.accesses, hword,
      Expr.accesses_word, hw.accesses, append_nil, mem_singleton] at ha
    cases ha
    exact hblock hr
  | ret hkind _ hfits hwords =>
    obtain ⟨hlength, haccesses⟩ := operandWords_accesses hvalues hwords
    obtain ⟨k, heq, hk⟩ := of_mem_returnLines haccesses ha
    cases heq
    exact ⟨k, rfl, .ret hkind (by omega) hfits⟩
  | globalLoad hkind hfield | globalStore hkind hfield =>
    obtain ⟨indices, offset, hptr⟩ := fieldOf_eq_ok hfield
    rw [hkind, Module.resources, hptr, mem_singleton] at hmem
    cases hmem
    cases hr
  | sample hkind | sampleLod hkind | textureLoad hkind | textureStore hkind =>
    rw [hkind] at hmem
    simp only [Module.resources, mem_cons, not_mem_nil, or_false] at hmem
    rcases hmem with rfl | rfl <;> cases hr
  | _ =>
    rw [‹s.kind = _›] at hmem
    cases hmem

/-! ## Walks -/

/-- Conditions touch no buffer. -/
theorem branchCondition_accesses {cond : StmtId} {c : Expr} (hvalues : values.Operands)
    (h : branchCondition ctx values s.id cond = .ok c) : c.accesses = [] := by
  obtain ⟨v, hv, h⟩ := bind_eq_ok.1 h
  cases h
  have hzero : (Expr.zero v.type.prim).accesses = [] := by cases v.type.prim <;> rfl
  simp [(hvalues.value (scalar_eq_ok.1 hv).1).accesses, hzero]

/-- Bounds of loops touch no buffer. -/
theorem loopBound_accesses {bound : RangeBound} {stop : Expr} (hvalues : values.Operands)
    (h : loopBound ctx values s.id bound = .ok stop) : stop.accesses = [] := by
  rcases loopBound_eq_ok h with ⟨f, n, -, -, rfl⟩ | ⟨x, v, -, hv, -, rfl⟩
  · rfl
  · exact (hvalues.value hv).accesses

/-- Line `l` stems from a statement with property `T`, whose uses have been collected. -/
def Stems (ctx : Context) (T : Stmt → Prop) (st : State) (l : Line) : Prop :=
  ∃ s, T s ∧ ∃ values lowering, values.Entries (Slotted ctx) ∧ Lowers ctx values s lowering ∧
    l ∈ lowering.code.lines ∧ ∀ u ∈ lowering.uses, st.Has (.resource u.resource)

theorem Stems.walk {T : Stmt → Prop} {l : Line} (h : Stems ctx T st l)
    (hwalk : Walks ctx st o st' code) : Stems ctx T st' l := by
  obtain ⟨s, hs, values, lowering, hvalues, hl, hline, huses⟩ := h
  exact ⟨s, hs, values, lowering, hvalues, hl, hline, fun u hu => hwalk.has (huses u hu)⟩

theorem branchCode_lines {c : Expr} {second : Outline} {yes no tail : Code}
    (hempty : second.isEmpty = true → no = .done) :
    (branchCode c second yes no tail).lines =
      .perform c :: (yes.lines ++ (no.lines ++ tail.lines)) := by
  unfold branchCode
  split
  · rename_i h
    rw [hempty h]
    rfl
  · rfl

/-- **A line of a walk stems from a statement, or touches nothing**, as the head of a block does. -/
theorem Walks.stems {T : Stmt → Prop} {l : Line} (h : Walks ctx st o st' code)
    (hT : ∀ s ∈ o.stmts, T s) (hfound : ∀ s, T s → ctx.module.stmts[s.id]? = some s)
    (hst : st.values.Entries (Slotted ctx)) (hl : l ∈ code.lines) :
    Stems ctx T st' l ∨ l.accesses = [] := by
  have hyields {o : Outline} (hT : ∀ s ∈ o.stmts, T s) : Yields ctx o (Slotted ctx) :=
    yields_slotted fun s hs => hfound s (hT s hs)
  induction h with
  | nil => cases hl
  | @branch _ _ _ _ s first second rest _ _ _ c yes no tail _ hcond hfirst hsecond hrest ihFirst
      ihSecond ihRest =>
    obtain ⟨-, hT₁, hT₂, hT₃⟩ := Outline.forall_stmts_cons.1 hT
    have hst₁ := hfirst.entries (hyields hT₁) hst
    have hst₂ := hsecond.entries (hyields hT₂) hst₁
    have hc := branchCondition_accesses (fun x v hx => (hst x v hx).1) hcond
    simp only [branchCode_lines hsecond.done_of_isEmpty, mem_cons, mem_append] at hl
    rcases hl with rfl | hl | hl | hl
    · exact .inr hc
    · exact (ihFirst hT₁ hst hl).imp (fun hl => (hl.walk hsecond).walk hrest) id
    · exact (ihSecond hT₂ hst₁ hl).imp (fun hl => hl.walk hrest) id
    · exact ihRest hT₃ hst₂ hl
  | loop _ hfirst hrest ihFirst ihRest =>
    obtain ⟨-, hT₁, -, hT₃⟩ := Outline.forall_stmts_cons.1 hT
    rcases mem_append.1 hl with hl | hl
    · exact (ihFirst hT₁ hst hl).imp (fun hl => hl.walk hrest) id
    · exact ihRest hT₃ (hfirst.entries (hyields hT₁) hst) hl
  | @count _ _ _ s _ _ _ _ _ _ stop _ _ _ hstop hfirst hrest ihFirst ihRest =>
    obtain ⟨-, hT₁, -, hT₃⟩ := Outline.forall_stmts_cons.1 hT
    have hstop := loopBound_accesses (fun x v hx => (hst x v hx).1) hstop
    simp only [Code.lines, mem_cons, mem_append] at hl
    rcases hl with rfl | rfl | rfl | hl | hl
    · exact .inr rfl
    · exact .inr (by simp [Line.accesses, LoopHeader.test, serialLoop, hstop])
    · exact .inr rfl
    · exact (ihFirst hT₁ hst hl).imp (fun hl => hl.walk hrest) id
    · exact ihRest hT₃ (hfirst.entries (hyields hT₁) hst) hl
  | leaf hkind hlower happly hrest ihRest =>
    obtain ⟨hs, -, -, hT₃⟩ := Outline.forall_stmts_cons.1 hT
    have hlowers := lowers_of_lower hkind hlower
    rw [Code.lines_append, mem_append] at hl
    rcases hl with hl | hl
    · refine .inl ⟨_, hs, _, _, hst, hlowers, hl, fun u hu => ?_⟩
      exact hrest.has (apply_has happly (.inr ⟨u, hu, rfl⟩))
    · exact ihRest hT₃ (apply_entries hst
        (fun v => hyields hT _ (by simp [Outline.stmts]) _ _ v hlowers) happly) hl

/-- **The code of a walk touches blocks where its statements do**, and they are collected. -/
theorem Walks.touched {T : Stmt → Prop} (h : Walks ctx st o st' code) (hT : ∀ s ∈ o.stmts, T s)
    (hfound : ∀ s, T s → ctx.module.stmts[s.id]? = some s)
    (hst : st.values.Entries (Slotted ctx)) (hr : r.isBlock = true)
    (ha : (r, i) ∈ code.accesses) :
    st'.Has (.resource r) ∧ ∃ k : Nat, i = .lit (.abstract k) ∧ ∃ s, T s ∧ Addressed ctx s r k := by
  obtain ⟨l, hl, ha⟩ := Code.mem_accesses.1 ha
  rcases h.stems hT hfound hst hl with
    ⟨s, hs, values, lowering, hvalues, hlowers, hl, huses⟩ | hnone
  · have ha := Code.mem_accesses.2 ⟨l, hl, ha⟩
    obtain ⟨k, hk, haddressed⟩ := hlowers.addressed hvalues ha hr
    obtain ⟨u, hu, hur⟩ := hlowers.use_of_access (fun x v hx => (hvalues x v hx).1) ha
    cases hur
    exact ⟨huses u hu, k, hk, s, hs, haddressed⟩
  · rw [hnone] at ha
    cases ha

end Codegen

end WgslKernel
