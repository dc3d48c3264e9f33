import WgslKernel.Proofs.Bindings.FirstUse
import WgslKernel.Proofs.Dispatch.Strides
import WgslKernel.Proofs.Simulation.Blocks

/-!
# The parallel loop of a dispatch

A parallel loop is emitted as one counting loop that all invocations run, from the number of the
invocation on by the number of all of them.  They run the body with each index once exactly if the
last index and the stride together fit into a signed word.
-/

namespace WgslKernel

open Codegen

namespace LoopHeader

/-- The values of its counter with which a counting loop runs its body, turn by turn. -/
inductive Visits (inv : Invocation) (h : LoopHeader) (body : Store → Run (Flow × Store)) :
    Store → List Int32 → Prop where
  | stop {st : Store} (htest : h.test.holds inv st = .done false) : Visits inv h body st []
  | turn {st st' : Store} {v : Int32} {vs : List Int32} (htest : h.test.holds inv st = .done true)
      (hcounter : (Expr.ident h.counter).eval inv st = .done (.int v))
      (hturn : Code.countTurn inv h body st = .done (true, st')) (rest : Visits inv h body st' vs) :
      Visits inv h body st (v :: vs)
  /-- The body leaves the loop. -/
  | leave {st st' : Store} {v : Int32} (htest : h.test.holds inv st = .done true)
      (hcounter : (Expr.ident h.counter).eval inv st = .done (.int v))
      (hturn : Code.countTurn inv h body st = .done (false, st')) : Visits inv h body st [v]

/-- A loop ends with a turn that asks for no other. -/
theorem repeats_of_last {turn : Store → Run (Bool × Store)} {st last : Store} {fuel : Nat}
    (h : turn st = .done (false, last)) (hfuel : 0 < fuel) :
    Run.repeats turn fuel st = .done last := by
  cases fuel with
  | zero => exact absurd hfuel (Nat.lt_irrefl 0)
  | succ fuel =>
    rw [Run.repeats, h]
    rfl

/-- A loop that is through with its values has come to its end. -/
theorem Visits.repeats {inv : Invocation} {h : LoopHeader} {body : Store → Run (Flow × Store)}
    {st : Store} {vs : List Int32} (hvisits : h.Visits inv body st vs) :
    ∃ last, ∀ fuel, vs.length < fuel →
      Run.repeats (Code.countTurn inv h body) fuel st = .done last := by
  induction hvisits with
  | @stop st htest =>
    have hturn : Code.countTurn inv h body st = .done (false, st) := by
      rw [Code.countTurn, htest]
      rfl
    exact ⟨st, fun fuel hfuel => repeats_of_last hturn hfuel⟩
  | turn _ _ hturn _ ih =>
    obtain ⟨last, hlast⟩ := ih
    refine ⟨last, fun fuel hfuel => ?_⟩
    cases fuel with
    | zero => exact absurd hfuel (Nat.not_lt_zero _)
    | succ fuel =>
      rw [Run.repeats, hturn]
      exact hlast fuel (Nat.lt_of_succ_lt_succ hfuel)
  | leave _ _ hturn =>
    exact ⟨_, fun fuel hfuel => repeats_of_last hturn (Nat.zero_lt_of_lt hfuel)⟩

end LoopHeader

/-! ## Turns of the parallel loop -/

namespace GridLoop

/-- A body that is given the index, and works on memory. -/
def working (effect : Int32 → Memory → Memory) (st : Store) : Run (Flow × Store) :=
  match (st.locals.get? .gridIndex).map Slot.value with
  | some (.int v) => .done (.next, { st with memory := effect v st.memory })
  | _ => .stuck

/-- The names of the parallel loop, before a turn with index `v`. -/
structure AtIndex (stop step v : Int32) (st : Store) : Prop where
  index : st.locals.get? .gridIndex = some ⟨.gridIndex, true, .int v⟩
  stop : st.locals.get? .rangeEnd = some ⟨.rangeEnd, false, .int stop⟩
  step : st.locals.get? .totalInvocs = some ⟨.totalInvocs, false, .int step⟩

variable {inv : Invocation} {effect : Int32 → Memory → Memory} {stop step v : Int32} {st : Store}
  {vs : List Int32}

namespace AtIndex

theorem eval_index (h : AtIndex stop step v st) :
    (Expr.ident gridLoop.counter).eval inv st = .done (.int v) := by
  simp [gridLoop, Expr.eval, Invocation.builtin?, h.index]

theorem eval_stop (h : AtIndex stop step v st) : gridLoop.stop.eval inv st = .done (.int stop) := by
  simp [gridLoop, Expr.eval, Invocation.builtin?, h.stop]

theorem eval_step (h : AtIndex stop step v st) : gridLoop.step.eval inv st = .done (.int step) := by
  simp [gridLoop, Expr.eval, Invocation.builtin?, h.step]

theorem test (h : AtIndex stop step v st) :
    gridLoop.test.holds inv st = .done (decide (v < stop)) := by
  rw [LoopHeader.test, Expr.holds, eval_onInts h.eval_index h.eval_stop]
  rfl

theorem lt_of_test (h : AtIndex stop step v st)
    (htest : gridLoop.test.holds inv st = .done true) : v < stop := by
  rw [h.test] at htest
  simpa using htest

/-- A turn goes on to the next index, whatever it does to memory. -/
theorem turn (inv : Invocation) (effect : Int32 → Memory → Memory) (h : AtIndex stop step v st)
    (hlt : v < stop) :
    ∃ st', Code.countTurn inv gridLoop (working effect) st = .done (true, st') ∧
      AtIndex stop step (v + step) st' := by
  have htest : gridLoop.test.holds inv st = .done true := by
    rw [h.test, decide_eq_true hlt]
  have hbody : working effect st = .done (.next, { st with memory := effect v st.memory }) := by
    simp only [working, h.index, Option.map_some]
  have hleave : st.leave { st with memory := effect v st.memory } =
      { st with memory := effect v st.memory } := by
    simp [Store.leave]
  have hafter : AtIndex stop step v { st with memory := effect v st.memory } :=
    ⟨h.index, h.stop, h.step⟩
  obtain ⟨l, hassign, -, hindex, hothers⟩ :=
    Locals.assign_of_get? (d := .int (v + step)) h.index rfl rfl
  have hsum : (Expr.binary .add (.ident gridLoop.counter) gridLoop.step).eval inv
      { st with memory := effect v st.memory } = .done (.int (v + step)) := by
    rw [eval_onInts hafter.eval_index hafter.eval_step]
    rfl
  have hput : Store.put inv { st with memory := effect v st.memory } (.ident gridLoop.counter)
      (.int (v + step)) = .done ⟨l, effect v st.memory⟩ := by
    rw [Store.put]
    simp [gridLoop, hassign]
  refine ⟨⟨l, effect v st.memory⟩, ?_, hindex, ?_, ?_⟩
  · rw [Code.countTurn_of_holds htest, hbody, Run.done_bind]
    simp only [hleave, LoopHeader.update, Line.exec, hsum, Run.done_bind, hput]
    rfl
  · exact (hothers _ (by decide)).trans h.stop
  · exact (hothers _ (by decide)).trans h.step

/-- **The indices of an invocation** are the values of its counter in 32-bit arithmetic. -/
theorem visits_iff (h : AtIndex stop step v st) :
    gridLoop.Visits inv (working effect) st vs ↔ Strides stop step v vs := by
  constructor
  · intro hvisits
    induction hvisits generalizing v with
    | stop htest =>
      rw [h.test] at htest
      exact .stop fun hlt => by simp [hlt] at htest
    | turn htest hcounter hturn _ ih =>
      have hlt := h.lt_of_test htest
      obtain ⟨st', hst', hat⟩ := h.turn inv effect hlt
      cases hst'.symm.trans hturn
      cases h.eval_index.symm.trans hcounter
      exact .turn hlt (ih hat)
    | leave htest _ hturn =>
      have hlt := h.lt_of_test htest
      obtain ⟨st', hst', -⟩ := h.turn inv effect hlt
      cases hst'.symm.trans hturn
  · intro hstrides
    induction hstrides generalizing st with
    | stop hnot => exact .stop (by rw [h.test, decide_eq_false hnot])
    | turn hlt _ ih =>
      obtain ⟨st', hst', hat⟩ := h.turn inv effect hlt
      exact .turn (by rw [h.test, decide_eq_true hlt]) h.eval_index hst' (ih hat)

end AtIndex

/-- The iterations that a bound stands for: a constant, where negative ones count as none, the
elements of a field, or a word in memory. -/
inductive Trips (m : Module) (memory : Memory) : RangeBound → Int32 → Prop where
  | const {x : StmtId} {c : Int32} (h : m.kind? x = some (.const (.i32 c))) :
      Trips m memory (.value x) (if c < 0 then 0 else c)
  | field {f : Field} {n : Nat} (h : f.elementCount = some n) :
      Trips m memory (.field f) (Int32.ofNat n)
  | dynamic {x ptr : StmtId} {offset : Nat} {w : Int32}
      (hload : m.kind? x = some (.temporaryLoad ptr))
      (hptr : m.kind? ptr = some (.temporary .i32 offset))
      (hword : memory.read .globalTmps (offset / 4 : Nat) = .done w) : Trips m memory (.value x) w

/-- A negative number counts as none. -/
theorem ofInt_toNat (c : Int32) : Int32.ofInt c.toInt.toNat = if c < 0 then 0 else c := by
  split
  · rename_i hneg
    have hnone : c.toInt.toNat = 0 := by
      have hzero := Int32.lt_iff_toInt_lt.1 hneg
      rw [Int32.toInt_zero] at hzero
      omega
    rw [hnone]
    rfl
  · rename_i hnonneg
    have hsome : (c.toInt.toNat : Int) = c.toInt := by
      rw [Int32.lt_iff_toInt_lt, Int32.toInt_zero] at hnonneg
      omega
    rw [hsome, Int32.ofInt_toInt]

/-- The end of the loop evaluates to the number of its iterations. -/
theorem Trips.eval_stop {ctx : Context} {memory : Memory} {root : StmtId} {bound : RangeBound}
    {b : GridBound} {n : Int32} (h : Trips ctx.module memory bound n)
    (hb : GridBounds ctx root bound b) (hmemory : st.memory = memory) :
    b.stop.eval inv st = .done (.int n) := by
  cases hb with
  | @field _ k hk =>
    cases h with
    | field hn =>
      obtain ⟨hcount, hlt⟩ := fieldElements_eq_ok hk
      cases hn.symm.trans hcount
      rw [eval_index hlt, Int32.ofInt_eq_ofNat]
  | @const _ c hx =>
    cases h with
    | const hx' =>
      cases hx.symm.trans hx'
      have hlt := c.toInt_lt
      rw [eval_int ⟨by omega, by omega⟩, ofInt_toNat]
    | dynamic hload => cases hx.symm.trans hload
  | @loaded _ _ _ k hload hptr hk =>
    cases h with
    | const hx => cases hload.symm.trans hx
    | dynamic hload' hptr' hword =>
      cases hload.symm.trans hload'
      cases hptr.symm.trans hptr'
      obtain ⟨rfl, -⟩ := temporaryWord_eq_ok hk
      rw [Nat.mul_div_cancel_left k (by decide)] at hword
      have hlit : (Expr.lit (.abstract k)).eval inv st = .done (.abstract k) := by
        rw [Expr.eval, Literal.eval]
      rw [eval_word hlit rfl, hmemory, hword]
      rfl

/-! ## The lines ahead of the loop -/

theorem eval_start (inv : Invocation) (st : Store) :
    gridLoop.start.eval inv st = .done (.int inv.id.toInt32) := by
  have hid : (Expr.select (.ident .globalInvocationId) .x).eval inv st = .done (.word inv.id) := by
    simp [Expr.eval, Invocation.builtin?, Datum.component]
  rw [gridLoop, eval_convert hid]
  rfl

/-- The stride is computed in 32-bit arithmetic. -/
theorem eval_stride (inv : Invocation) (st : Store) {size : Nat} (hsize : size < indexLimit) :
    (Expr.binary .mul (.convert ⟨.i32, 1⟩ (.select (.ident .numWorkgroups) .x)) (.int size)).eval
      inv st = .done (.int (inv.groups.toInt32 * Int32.ofNat size)) := by
  have hselect : (Expr.select (.ident .numWorkgroups) .x).eval inv st =
      .done (.word inv.groups) := by
    simp [Expr.eval, Invocation.builtin?, Datum.component]
  have hgroups : (Expr.convert ⟨.i32, 1⟩ (.select (.ident .numWorkgroups) .x)).eval inv st =
      .done (.int inv.groups.toInt32) := by
    rw [eval_convert hselect]
    rfl
  rw [eval_onInts hgroups (eval_index hsize), Int32.ofInt_eq_ofNat]
  rfl

/-- Invocation `i` of so many workgroups runs the body with the given indices, and ends. -/
def Takes (config : Config) (stop : Expr) (groups : Nat) (memory : Memory)
    (effect : Int32 → Memory → Memory) (i : Nat) (vs : List Int32) : Prop :=
  let inv : Invocation := ⟨UInt32.ofNat i, UInt32.ofNat groups⟩
  ∃ st inner last,
    (Code.ofLines (gridPrologue config stop)).exec inv 0 ⟨[], memory⟩ = .done (.next, st) ∧
      gridLoop.first.exec inv st = .done (.next, inner) ∧
      gridLoop.Visits inv (working effect) inner vs ∧
      ∀ fuel, vs.length < fuel →
        Run.repeats (Code.countTurn inv gridLoop (working effect)) fuel inner = .done last

variable {config : Config} {upper : Expr} {groups i : Nat} {memory : Memory} {n : Int32}

/-- An invocation takes the indices of a stride. -/
theorem takes_iff (hsize : config.workgroupSize ≤ 256)
    (hupper : ∀ inv st, st.memory = memory → upper.eval inv st = .done (.int n)) :
    Takes config upper groups memory effect i vs ↔
      Strides n (Int32.ofNat (groups * config.workgroupSize)) (Int32.ofNat i) vs := by
  let inv : Invocation := ⟨UInt32.ofNat i, UInt32.ofNat groups⟩
  let named : Store := (Store.declare ⟨[], memory⟩ .totalInvocs false
    (.int (Int32.ofNat (groups * config.workgroupSize)))).declare .rangeEnd false (.int n)
  let started : Store := named.declare .gridIndex true (.int (Int32.ofNat i))
  have hlimit : config.workgroupSize < indexLimit := by
    unfold indexLimit
    omega
  have hproduct : inv.groups.toInt32 * Int32.ofNat config.workgroupSize =
      Int32.ofNat (groups * config.workgroupSize) := (Int32.ofNat_mul _ _).symm
  have hprologue : (Code.ofLines (gridPrologue config upper)).exec inv 0 ⟨[], memory⟩ =
      .done (.next, named) := by
    simp [gridPrologue, Code.ofLines, Code.exec, Line.exec, eval_stride inv _ hlimit, hproduct,
      hupper, Datum.inferred, Datum.typed, Store.declare, named]
  have hfirst : gridLoop.first.exec inv named = .done (.next, started) := by
    simp only [LoopHeader.first, Line.exec, eval_start, Run.done_bind, Datum.typed]
    rfl
  have hat : AtIndex n (Int32.ofNat (groups * config.workgroupSize)) (Int32.ofNat i) started :=
    ⟨rfl, rfl, rfl⟩
  constructor
  · rintro ⟨st, inner, last, hst, hinner, hvisits, -⟩
    cases hprologue.symm.trans hst
    cases hfirst.symm.trans hinner
    exact hat.visits_iff.1 hvisits
  · intro hstrides
    have hvisits : gridLoop.Visits inv (working effect) started vs := hat.visits_iff.2 hstrides
    obtain ⟨last, hlast⟩ := hvisits.repeats
    exact ⟨named, started, last, hprologue, hfirst, hvisits, hlast⟩

/-- All invocations together run the body with every index below `n` once, and with no other. -/
def CoversAll (config : Config) (stop : Expr) (groups : Nat) (memory : Memory)
    (effect : Int32 → Memory → Memory) (n : Int32) : Prop :=
  ∃ share,
    (∀ i < groups * config.workgroupSize, Takes config stop groups memory effect i (share i)) ∧
      Covers (groups * config.workgroupSize) n share

/-- When all indices are covered. -/
theorem coversAll_iff (hsize : 1 ≤ config.workgroupSize ∧ config.workgroupSize ≤ 256)
    (hgroups : 1 ≤ groups)
    (hupper : ∀ inv st, st.memory = memory → upper.eval inv st = .done (.int n)) :
    CoversAll config upper groups memory effect n ↔
      n = Int32.minValue ∨ n.toInt.toNat + groups * config.workgroupSize ≤ 2 ^ 31 := by
  simp only [CoversAll, takes_iff hsize.2 hupper]
  exact exists_covers_iff (Nat.mul_pos hgroups hsize.1)

end GridLoop

/-! ## The dispatch -/

/-- What the loader makes sure of. -/
theorem Config.bounds_of_parse {text : String} {config : Config}
    (h : Config.parse text = .ok config) :
    (1 ≤ config.workgroupSize ∧ config.workgroupSize ≤ 256) ∧ 1 ≤ config.maxWorkgroups ∧
      1 ≤ config.dynamicWorkgroups := by
  obtain ⟨r, -, h⟩ := bind_eq_ok.1 h
  obtain ⟨⟨⟩, hcheck, h⟩ := bind_eq_ok.1 h
  cases h
  unfold Config.check at hcheck
  split at hcheck
  · cases hcheck
  · split at hcheck
    · cases hcheck
    · split at hcheck
      · cases hcheck
      · omega

/-- There is at least one workgroup. -/
theorem Codegen.one_le_of_workgroups {config : Config} {hint : RangeHint} {groups : Nat}
    (hmax : 1 ≤ config.maxWorkgroups) (hdynamic : 1 ≤ config.dynamicWorkgroups)
    (h : workgroups config hint = .ok groups) : 1 ≤ groups := by
  have hclamped {n : Nat} (h : orFault (config.workgroupsFor n) = .ok groups) : 1 ≤ groups := by
    have h := orFault_eq_ok.1 h
    unfold Config.workgroupsFor at h
    split at h
    · cases h
    · split at h
      · cases h
      · cases h
        omega
  cases hint with
  | const n => exact hclamped h
  | fieldElements f n => exact hclamped h
  | dynamic offset =>
    cases h
    exact hdynamic

variable {m : Module} {o : Offload} {signature : Signature} {previous : Option Task} {t : Task}

open GridLoop in
/-- **The parallel loop of a dispatch.**  The emitted shader runs `gridLoop` behind its prologue.
With `groups` workgroups, as the dispatch says, every invocation comes to its end and together they
run the body with each index once, exactly if the number of iterations and the number of invocations
add up to at most `2 ^ 31`; or if the bound is the least integer, below which there is nothing. -/
theorem generate_covers_iff {text : String} {config : Config}
    (hconfig : Config.parse text = .ok config) (ho : o ∈ m.groups) (hkind : o.kind = .rangeFor)
    (h : generate m o signature config previous = .ok t) :
    ∃ p root bound serial body stop groups hint seeding code,
      Codegen.program m o signature config previous = .ok p ∧ t = p.task o.kind signature ∧
      o.stmts = [root] ∧ m.kind? root = some (.rangeFor bound serial body) ∧
      p.shader.prologue = .ofLines (gridPrologue config stop ++ seeding) ∧
      p.shader.body = .countLoop gridLoop code .done ∧
      t.dispatch = .compute config.workgroupSize groups (some hint) ∧
      ∀ memory n, Trips m memory bound n → ∀ effect,
        (CoversAll config stop groups memory effect n ↔
          n = Int32.minValue ∨ n.toInt.toNat + groups * config.workgroupSize ≤ 2 ^ 31) := by
  obtain ⟨hsize, hmax, hdynamic⟩ := Config.bounds_of_parse hconfig
  obtain ⟨p, hp, h⟩ := bind_eq_ok.1 h
  cases h
  obtain ⟨bindings, d, hd, hassemble⟩ := program_eq_ok hp
  obtain ⟨root, hstmts⟩ := Module.exists_root_of_mem_groups ho (by simp [hkind])
  obtain ⟨s, bound, serial, body, b, st₀, groups, st', code, hs, hbound, hb, -, hgroups, -, rfl⟩ :=
    draft_rangeFor hkind hstmts hd
  subst hassemble
  refine ⟨_, root, bound, serial, body, b.stop, groups, b.hint, _, code, hp, rfl, hstmts, ?_, rfl,
    rfl, ?_, fun memory n htrips effect => ?_⟩
  · rw [Module.kind?]
    exact Option.map_eq_some_iff.2 ⟨s, hs, hbound⟩
  · simp only [Program.task, assemble, contextOf, hkind, OffloadKind.stage, workgroupSize]
  · exact coversAll_iff hsize (one_le_of_workgroups hmax hdynamic hgroups)
      fun inv st hmemory => htrips.eval_stop hb hmemory

-- the header of the loop, as it stands in the text of the shader
example : gridLoop.text =
    "for (var ii: i32 = i32(global_invocation_id.x); ii < range_end; ii = ii + total_invocs)" := by
  decide

/-- A parallel loop that writes each of its indices to a field, at that index. -/
def Session.indices (n : Int32) : List Action :=
  [.create (.const (.i32 n)), .create (.rangeFor (.value 0) false), .openGuard .rangeFor 1,
    .create (.loopIndex 1), .create (.globalPtr ⟨0, [n.toInt.toNat], .i32, 1, 0, 0, true⟩ [2] 0),
    .create (.globalStore 3 2), .closeGuard 0]

/-- A thousand indices are covered. -/
theorem generate_covers_iff_indices : ∃ session m o t stop,
    Session.run {} (Session.indices 1000) = .ok session ∧ session.builder.finish = .ok m ∧
      m.groups = [o] ∧
      Config.parse "[compute]\nworkgroup_size = 64\n" = .ok { workgroupSize := 64 } ∧
      generate m o ⟨0, 0⟩ { workgroupSize := 64 } none = .ok t ∧
      t.dispatch = .compute 64 16 (some (.const 1000)) ∧
      ∀ memory effect, GridLoop.CoversAll { workgroupSize := 64 } stop 16 memory effect 1000 := by
  have hkernel : ∃ session m o p, Session.run {} (Session.indices 1000) = .ok session ∧
      session.builder.finish = .ok m ∧ m.groups = [o] ∧ o.kind = .rangeFor ∧ o.stmts = [1] ∧
      m.kind? 0 = some (.const (.i32 1000)) ∧ m.kind? 1 = some (.rangeFor (.value 0) false 1) ∧
      Codegen.program m o ⟨0, 0⟩ { workgroupSize := 64 } none = .ok p ∧
      (p.task o.kind ⟨0, 0⟩).dispatch = .compute 64 16 (some (.const 1000)) :=
    ⟨_, _, _, _, rfl, rfl, rfl, rfl, rfl, rfl, rfl, rfl, rfl⟩
  obtain ⟨session, m, o, p, hrun, hfinish, hgroups, hkind, hstmts, hconst, hloop, hp, hdispatch⟩ :=
    hkernel
  have hconfig : Config.parse "[compute]\nworkgroup_size = 64\n" = .ok { workgroupSize := 64 } := by
    decide
  have hgen : generate m o ⟨0, 0⟩ { workgroupSize := 64 } none = .ok (p.task o.kind ⟨0, 0⟩) := by
    rw [generate, hp]
    rfl
  obtain ⟨q, root, bound, serial, body, stop, groups, hint, seeding, code, -, -, hroot, hbound, -,
    -, hcompute, hcovers⟩ := generate_covers_iff hconfig (hgroups ▸ List.mem_cons_self) hkind hgen
  cases hstmts.symm.trans hroot
  cases hloop.symm.trans hbound
  cases hdispatch.symm.trans hcompute
  refine ⟨session, m, o, _, stop, hrun, hfinish, hgroups, hconfig, hgen, hdispatch,
    fun memory effect => (hcovers memory 1000 (.const hconst) effect).2 (.inr (by decide))⟩

/-- **A loop of `2 ^ 31 - 128` iterations** is dispatched with as many workgroups as there may be,
and these do not cover it: one of the invocations wraps around to a negative index.  Only a single
workgroup would do. -/
theorem not_covers_saturated : ∃ session m o p,
    Session.run {} (Session.indices 2147483520) = .ok session ∧ session.builder.finish = .ok m ∧
      m.groups = [o] ∧ Config.parse "" = .ok {} ∧ Codegen.program m o ⟨0, 0⟩ {} none = .ok p ∧
      p.shader.prologue = .ofLines (gridPrologue {} (.int 2147483520)) ∧
      (∃ code, p.shader.body = .countLoop gridLoop code .done) ∧
      (p.task o.kind ⟨0, 0⟩).dispatch = .compute 128 65535 (some (.const 2147483520)) ∧
      ∀ memory effect,
        ¬ GridLoop.CoversAll {} (.int 2147483520) 65535 memory effect 2147483520 ∧
        ∀ groups ≥ 1, GridLoop.CoversAll {} (.int 2147483520) groups memory effect 2147483520 ↔
          groups = 1 := by
  have hkernel : ∃ session m o p, Session.run {} (Session.indices 2147483520) = .ok session ∧
      session.builder.finish = .ok m ∧ m.groups = [o] ∧ Config.parse "" = .ok {} ∧
      Codegen.program m o ⟨0, 0⟩ {} none = .ok p ∧
      p.shader.prologue = .ofLines (gridPrologue {} (.int 2147483520)) ∧
      (∃ code, p.shader.body = .countLoop gridLoop code .done) ∧
      (p.task o.kind ⟨0, 0⟩).dispatch = .compute 128 65535 (some (.const 2147483520)) :=
    ⟨_, _, _, _, rfl, rfl, rfl, rfl, rfl, rfl, ⟨_, rfl⟩, rfl⟩
  obtain ⟨session, m, o, p, hrun, hfinish, hgroups, hconfig, hp, hprologue, hbody, hdispatch⟩ :=
    hkernel
  refine ⟨session, m, o, p, hrun, hfinish, hgroups, hconfig, hp, hprologue, hbody, hdispatch,
    fun memory effect => ?_⟩
  have hcovers {groups : Nat} (h : 1 ≤ groups) :
      GridLoop.CoversAll {} (.int 2147483520) groups memory effect 2147483520 ↔ groups = 1 := by
    have hupper (inv : Invocation) (st : Store) (_ : st.memory = memory) :
        (Expr.int 2147483520).eval inv st = .done (.int 2147483520) := eval_int (by decide)
    have hcount : (2147483520 : Int32).toInt.toNat = 2147483520 := rfl
    have hnotMin : (2147483520 : Int32) ≠ Int32.minValue := by decide
    rw [GridLoop.coversAll_iff (by decide) h hupper, hcount, or_iff_right hnotMin]
    show 2147483520 + groups * 128 ≤ 2 ^ 31 ↔ groups = 1
    omega
  exact ⟨fun h => absurd ((hcovers (by decide)).1 h) (by decide), fun groups h => hcovers h⟩

end WgslKernel
