import Mathlib.Data.List.FinRange
import WgslKernel.Proofs.Access.Reach
import WgslKernel.Proofs.Concurrency.Threads
import WgslKernel.Proofs.Scoping.Walk

/-!
# Atomic updates of floats

An update of a float is a loop around a compare-exchange of the word that holds its bits, and other
invocations may come in between.  The order in which the exchanges go through is the order in which
the updates take effect (`Linearized`).  That the word may have been changed and changed back since
it was seen does no harm: the new bits depend on nothing but the bits.
-/

namespace WgslKernel

open List

/-! ## One word of memory -/

namespace Memory

variable {mem mem' : Memory} {r : Resource} {i : Int} {w : Int32}

theorem exists_write (h : mem.read r i = .done w) (v : Int32) :
    ∃ mem', mem.write r i v = .done mem' := by
  unfold Memory.read at h
  unfold Memory.write
  split at h
  · rename_i hi
    split at h
    · rename_i hw
      have hlt := (List.getElem?_eq_some_iff.1 hw).1
      exact ⟨_, if_pos ⟨hi.1, hi.2, hlt⟩⟩
    · cases h
  · cases h

theorem write_self (h : mem.read r i = .done w) : mem.write r i w = .done mem := by
  unfold Memory.read at h
  unfold Memory.write
  split at h
  · rename_i hi
    split at h
    · rename_i hw
      cases h
      obtain ⟨hlt, hget⟩ := List.getElem?_eq_some_iff.1 hw
      rw [if_pos ⟨hi.1, hi.2, hlt⟩]
      congr
      funext q
      split
      · rename_i hq
        rw [hq, ← hget, set_getElem_self]
      · rfl
    · cases h
  · cases h

/-- What is written is read. -/
theorem read_of_write (h : mem.write r i w = .done mem') : mem'.read r i = .done w := by
  unfold Memory.write at h
  unfold Memory.read
  split at h
  · rename_i hi
    cases h
    rw [if_pos ⟨hi.1, hi.2.1⟩]
    simp [hi.2.2]
  · cases h

/-- Of two writes to a word the second one counts. -/
theorem write_of_write (h : mem.write r i w = .done mem') (v : Int32) :
    mem'.write r i v = mem.write r i v := by
  unfold Memory.write at h ⊢
  split at h
  · rename_i hi
    cases h
    simp only [hi, if_true, length_set, and_self, set_set]
    congr
    funext q
    split <;> rfl
  · cases h

end Memory

/-- The operator of an atomic update. -/
def Floats.combine (F : Floats) : AtomicOp → UInt32 → UInt32 → UInt32
  | .add => F.add
  | .sub => F.sub
  | .max => F.max
  | .min => F.min

namespace Codegen

/-- Reached values name no scratch. -/
theorem Reaches.standIns {ctx : Context} {st st' : State} {o : Outline} {t : Stmt}
    (h : Reaches ctx st o st' t) (hst : st.values.StandIns) : st'.values.StandIns :=
  h.keeps (P := fun st => st.values.StandIns)
    (fun _ hst hl happly => apply_standIns hst hl happly) hst

/-! ## The loop in pieces -/

section Pieces

variable (id : StmtId) (op : AtomicOp) (target operand : Expr)

/-- Go on with the word that was found instead. -/
def retryCode : Code :=
  .line (.assign (.ident (.seen id)) (.select (.ident (.outcome id)) .oldValue)) .done

/-- Leave the loop if the exchange went through. -/
def verdictCode : Code :=
  .branch (.select (.ident (.outcome id)) .exchanged) (.line .exitLoop .done) (retryCode id)

/-- Try the exchange. -/
def attemptCode : Code :=
  .line (.letBind (.outcome id) none
    (.func .atomicCompareExchangeWeak
      [.address target, .ident (.seen id), .ident (.wanted id)])) (verdictCode id)

/-- One turn of the loop. -/
def turnCode : Code :=
  .line (.letBind (.wanted id) (some ⟨.i32, 1⟩)
    (.bitcast ⟨.i32, 1⟩ (combine op (.bitcast ⟨.f32, 1⟩ (.ident (.seen id))) operand)))
    (attemptCode id target)

/-- What the update stands for. -/
def resultCode : Code :=
  .line (.letBind (.temp id) (some ⟨.f32, 1⟩) (.bitcast ⟨.f32, 1⟩ (.ident (.seen id)))) .done

/-- The loop and what follows it. -/
def loopCode : Code := .loop (turnCode id op target operand) (resultCode id)

/-- All of the code. -/
def updateCode : Code :=
  .line (.declare (.seen id) ⟨.i32, 1⟩ (some (.func .atomicLoad [.address target])))
    (loopCode id op target operand)

/-- The code of the loop, in its parts. -/
theorem exchangeLoop_append_resultCode :
    exchangeLoop id op target operand ++ resultCode id = updateCode id op target operand := rfl

end Pieces

/-! ## The phases of an update -/

/-- How far an invocation has come, with the word seen last and the outcome of the exchange. -/
inductive Phase where
  | start
  | loaded (seen : Int32)
  | turning (seen : Int32)
  | attempting (seen : Int32)
  | failed (seen found : Int32)
  | retrying (seen found : Int32)
  | again (seen found : Int32)
  | exchanged (seen : Int32)
  | leaving (seen : Int32)
  | left (seen : Int32)
  | finished (seen : Int32)
  deriving DecidableEq, Repr

namespace Phase

/-- A compare-exchange that goes through. -/
def wins (word : Int32) (spurious : Bool) : Phase → Bool
  | attempting seen => word = seen ∧ spurious = false
  | _ => false

/-- The next phase, if the word is `word`. -/
def next (word : Int32) (spurious : Bool) : Phase → Phase
  | start => loaded word
  | loaded seen => turning seen
  | turning seen => attempting seen
  | attempting seen =>
    if (attempting seen).wins word spurious then exchanged seen else failed seen word
  | failed seen found => retrying seen found
  | retrying seen found => again seen found
  | again _ found => turning found
  | exchanged seen => leaving seen
  | leaving seen => left seen
  | left seen | finished seen => finished seen

/-- The word that was exchanged, if one was. -/
def won? : Phase → Option Int32
  | exchanged seen | leaving seen | left seen | finished seen => some seen
  | _ => none

/-- The update is over. -/
def isFinished : Phase → Bool
  | finished _ => true
  | _ => false

variable {p : Phase} {word : Int32} {spurious : Bool}

theorem exists_of_isFinished (h : p.isFinished = true) : ∃ seen, p = finished seen := by
  cases p with
  | finished seen => exact ⟨seen, rfl⟩
  | _ => cases h

theorem won?_of_wins (h : p.wins word spurious = true) : p.won? = none := by
  cases p with
  | attempting => rfl
  | _ => cases h

/-- An exchange that goes through has found the word there, and there is one of them at most. -/
theorem won?_next (p : Phase) (word : Int32) (spurious : Bool) :
    (p.next word spurious).won? = if p.wins word spurious then some word else p.won? := by
  cases p with
  | attempting seen =>
    rw [next]
    split
    · rename_i hwins
      have heq : word = seen ∧ spurious = false := by simpa [wins] using hwins
      rw [heq.1]
      rfl
    · rfl
  | _ => rfl

/-- Steps to the end for an invocation left alone; having seen another word it goes around once. -/
def rank (word : Int32) : Phase → Nat
  | finished _ => 0
  | left _ => 1
  | leaving _ => 2
  | exchanged _ => 3
  | attempting seen => 4 + detour seen
  | turning seen => 5 + detour seen
  | loaded seen | again _ seen => 6 + detour seen
  | start => 7
  | retrying _ found => 7 + detour found
  | failed _ found => 8 + detour found
where
  detour (seen : Int32) : Nat := if seen = word then 0 else 5

/-- An invocation that is left alone comes to its end. -/
theorem rank_next (word word' : Int32) (h : p.isFinished = false) :
    (p.next word false).rank (if p.wins word false then word' else word) < p.rank word := by
  cases p with
  | finished => cases h
  | attempting seen =>
    by_cases heq : word = seen
    · simp [next, wins, heq, rank, rank.detour]
    · have hne : ¬ seen = word := fun h => heq h.symm
      simp [next, wins, heq, hne, rank, rank.detour]
  | _ => simp [next, wins, rank, rank.detour]

end Phase

/-! ## Invocations at an update -/

/-- An invocation that has come to an atomic update of a float: its walk reaches the statement, the
target is word `i` of buffer `r`, and the operand has the given bits. -/
structure FloatUpdate (F : Floats) (ctx : Context) (st₀ : State) (o : Outline) (r : Resource)
    (i : Int) where
  stmt : Stmt
  op : AtomicOp
  dest : StmtId
  source : StmtId
  state : State
  target : AtomicTarget
  operand : Value
  lowering : Lowering
  scope : Scope
  bits : UInt32
  reached : Reaches ctx st₀ o state stmt
  kind_eq : stmt.kind = .atomic op dest source
  lower_eq : lower ctx state.values stmt = .ok lowering
  target_eq : atomicTarget ctx state.values stmt.id dest true = .ok target
  isFloat : target.prim = .f32
  operand_eq : ctx.value state.values stmt.id source = .ok operand
  place_eq : target.word.place F scope = .done (r, i)
  bits_eq : operand.expr.value F scope = .done (.float bits)

namespace FloatUpdate

variable {F : Floats} {ctx : Context} {st₀ : State} {o : Outline} {r : Resource} {i : Int}
  (u : FloatUpdate F ctx st₀ o r i)

/-- What the update makes of a word. -/
def apply (w : Int32) : Int32 := (F.combine u.op w.toUInt32 u.bits).toInt32

/-- The code of the update is the loop, and behind it the value of the statement. -/
theorem code_eq : u.lowering.code = updateCode u.stmt.id u.op u.target.word u.operand.expr := by
  have h := u.lower_eq
  simp only [lower, u.kind_eq, lowerAtomic, u.target_eq, u.operand_eq, ok_bind] at h
  obtain ⟨⟨⟩, -, h⟩ := bind_eq_ok.1 h
  rw [u.isFloat] at h
  obtain ⟨type, htype, heq⟩ := define_eq_ok.1 h
  cases htype
  rw [heq, ← exchangeLoop_append_resultCode]
  rfl

/-- The names that the loop declares for itself. -/
def scratch : List Ident := [.seen u.stmt.id, .wanted u.stmt.id, .outcome u.stmt.id]

theorem standsIn_of_mem_scratch {n : Ident} (hn : n ∈ u.scratch) :
    Name.standsIn (.ident n) = false := by
  simp only [scratch, mem_cons, not_mem_nil, or_false] at hn
  rcases hn with rfl | rfl | rfl <;> rfl

variable {u} (hstart : st₀.values = [])
include hstart

theorem standIns : u.state.values.StandIns :=
  u.reached.standIns (by simp [Values.StandIns, hstart])

/-- Scratch names do not occur in operands. -/
theorem not_mem_names {x : StmtId} {v : Value} {n : Ident}
    (hv : ctx.value u.state.values u.stmt.id x = .ok v) (hn : n ∈ u.scratch) :
    .ident n ∉ v.expr.names := by
  intro hmem
  have hstands := (standIns hstart).value hv _ hmem
  rw [u.standsIn_of_mem_scratch hn] at hstands
  cases hstands

/-- The operand does not depend on what the loop declares. -/
theorem operand_append (cells : Scope) (h : ∀ c ∈ cells, c.name ∈ u.scratch) :
    u.operand.expr.value F (cells ++ u.scope) = .done (.float u.bits) := by
  rw [Expr.value_append fun c hc => not_mem_names hstart u.operand_eq (h c hc), u.bits_eq]

/-- The target does not depend on what the loop declares. -/
theorem target_append (cells : Scope) (h : ∀ c ∈ cells, c.name ∈ u.scratch) :
    u.target.word.place F (cells ++ u.scope) = .done (r, i) := by
  obtain ⟨v, hv, hword, -⟩ := atomicTarget_eq_ok u.target_eq
  rw [← u.place_eq, Expr.place_append fun c hc => ?_]
  have hc := h c hc
  rw [hword, Expr.names_word, mem_cons, not_or]
  refine ⟨fun heq => ?_, not_mem_names hstart hv hc⟩
  rw [Name.ident.injEq] at heq
  simp [heq, scratch] at hc

omit hstart

/-! ## An invocation in a phase -/

variable (u)

/-- The word seen last. -/
def seenCell (w : Int32) : Cell := ⟨.seen u.stmt.id, true, .datum (.int w)⟩

/-- The word wanted in its place. -/
def wantedCell (w : Int32) : Cell := ⟨.wanted u.stmt.id, false, .datum (.int (u.apply w))⟩

/-- The outcome of an exchange. -/
def outcomeCell (w : Int32) (exchanged : Bool) : Cell :=
  ⟨.outcome u.stmt.id, false, .outcome w exchanged⟩

/-- The float that was found. -/
def tempCell (w : Int32) : Cell := ⟨.temp u.stmt.id, false, .datum (.float w.toUInt32)⟩

/-- The next turn of the loop, which leaves only the word last seen in scope. -/
def nextTurn : Continuation :=
  .turn (turnCode u.stmt.id u.op u.target.word u.operand.expr) (resultCode u.stmt.id)
    (u.scope.length + 1)

/-- The invocation in a phase. -/
def thread : Phase → Thread
  | .start => ⟨u.lowering.code, [], u.scope⟩
  | .loaded seen =>
    ⟨loopCode u.stmt.id u.op u.target.word u.operand.expr, [], u.seenCell seen :: u.scope⟩
  | .turning seen =>
    ⟨turnCode u.stmt.id u.op u.target.word u.operand.expr, [u.nextTurn], u.seenCell seen :: u.scope⟩
  | .attempting seen =>
    ⟨attemptCode u.stmt.id u.target.word, [u.nextTurn],
      u.wantedCell seen :: u.seenCell seen :: u.scope⟩
  | .failed seen found =>
    ⟨verdictCode u.stmt.id, [u.nextTurn],
      u.outcomeCell found false :: u.wantedCell seen :: u.seenCell seen :: u.scope⟩
  | .retrying seen found =>
    ⟨retryCode u.stmt.id, [u.nextTurn],
      u.outcomeCell found false :: u.wantedCell seen :: u.seenCell seen :: u.scope⟩
  | .again seen found =>
    ⟨.done, [u.nextTurn],
      u.outcomeCell found false :: u.wantedCell seen :: u.seenCell found :: u.scope⟩
  | .exchanged seen =>
    ⟨verdictCode u.stmt.id, [u.nextTurn],
      u.outcomeCell seen true :: u.wantedCell seen :: u.seenCell seen :: u.scope⟩
  | .leaving seen =>
    ⟨.line .exitLoop .done, [.after (retryCode u.stmt.id) (u.scope.length + 3), u.nextTurn],
      u.outcomeCell seen true :: u.wantedCell seen :: u.seenCell seen :: u.scope⟩
  | .left seen => ⟨resultCode u.stmt.id, [], u.seenCell seen :: u.scope⟩
  | .finished seen => ⟨.done, [], u.tempCell seen :: u.seenCell seen :: u.scope⟩

/-! ## Steps -/

section Steps

variable {u} {memory memory' : Memory} {w v : Int32} {spurious exchanged : Bool}

theorem value_seen :
    (Expr.ident (.seen u.stmt.id)).value F (u.seenCell w :: u.scope) = .done (.int w) := by
  simp [Expr.value, Scope.get?, seenCell, Held.value]

theorem value_bits : (Expr.bitcast ⟨.f32, 1⟩ (.ident (.seen u.stmt.id))).value F
    (u.seenCell w :: u.scope) = .done (.float w.toUInt32) := by
  rw [Expr.bitcast, Expr.value_call_one value_seen]
  rfl

include hstart in
/-- The bits that are to be put in place of `w`. -/
theorem value_wanted : (Expr.bitcast ⟨.i32, 1⟩ (combine u.op
    (.bitcast ⟨.f32, 1⟩ (.ident (.seen u.stmt.id))) u.operand.expr)).value F
      (u.seenCell w :: u.scope) = .done (.int (u.apply w)) := by
  have hoperand := operand_append (u := u) hstart [u.seenCell w]
    (by simp [seenCell, scratch])
  have hcombine : (combine u.op (.bitcast ⟨.f32, 1⟩ (.ident (.seen u.stmt.id)))
      u.operand.expr).value F (u.seenCell w :: u.scope) =
        .done (.float (F.combine u.op w.toUInt32 u.bits)) := by
    cases u.op with
    | add | sub => exact Expr.value_binary value_bits hoperand rfl
    | max | min => exact Expr.value_call_two value_bits hoperand
  rw [Expr.bitcast, Expr.value_call_one hcombine]
  rfl

/-- The word is loaded first. -/
theorem step_start (hread : memory.read r i = .done w) :
    (u.thread .start).step F spurious memory = .done (memory, u.thread (.loaded w)) := by
  have hplace : u.target.word.place F u.scope = .done (r, i) := u.place_eq
  simp [thread, u.code_eq, updateCode, Thread.step, Line.step, Expr.func, Expr.perform, hplace,
    hread, Held.typed, Datum.typed, seenCell]

include hstart in
theorem step_turning :
    (u.thread (.turning w)).step F spurious memory = .done (memory, u.thread (.attempting w)) := by
  have hwanted := value_wanted (u := u) (w := w) hstart
  have hperform (e : Expr) : (Expr.bitcast ⟨.i32, 1⟩ e).perform F (u.seenCell w :: u.scope) spurious
      memory = (Expr.bitcast ⟨.i32, 1⟩ e).value F (u.seenCell w :: u.scope) >>= fun d =>
        .done (memory, .datum d) := rfl
  simp [thread, turnCode, Thread.step, Line.step, hperform, hwanted, Held.typed, Datum.typed,
    wantedCell]

include hstart in
/-- An exchange goes through or fails. -/
theorem step_attempting (hread : memory.read r i = .done v)
    (hwrite : memory.write r i (u.apply v) = .done memory') :
    (u.thread (.attempting w)).step F spurious memory =
      .done (if (Phase.attempting w).wins v spurious then memory' else memory,
        u.thread ((Phase.attempting w).next v spurious)) := by
  have hplace := target_append (u := u) hstart [u.wantedCell w, u.seenCell w]
    (by simp [wantedCell, seenCell, scratch])
  have hseen : (Expr.ident (.seen u.stmt.id)).value F (u.wantedCell w :: u.seenCell w :: u.scope) =
      .done (.int w) := by
    simp [Expr.value, Scope.get?, seenCell, wantedCell, Held.value]
  have hwanted : (Expr.ident (.wanted u.stmt.id)).value F
      (u.wantedCell w :: u.seenCell w :: u.scope) = .done (.int (u.apply w)) := by
    simp [Expr.value, Scope.get?, wantedCell, Held.value]
  have hplace : u.target.word.place F (u.wantedCell w :: u.seenCell w :: u.scope) = .done (r, i) :=
    hplace
  by_cases hwins : v = w ∧ spurious = false
  · obtain ⟨rfl, rfl⟩ := hwins
    simp [thread, attemptCode, Thread.step, Line.step, Expr.func, Expr.perform, hplace, hseen,
      hwanted, hread, hwrite, Held.typed, Phase.wins, Phase.next, outcomeCell]
  · simp [thread, attemptCode, Thread.step, Line.step, Expr.func, Expr.perform, hplace, hseen,
      hwanted, hread, Held.typed, Phase.wins, Phase.next, outcomeCell, hwins]

theorem step_failed {found : Int32} :
    (u.thread (.failed w found)).step F spurious memory =
      .done (memory, u.thread (.retrying w found)) := by
  simp [thread, verdictCode, Thread.step, Expr.value, Expr.part, Scope.get?, outcomeCell,
    Held.component]

theorem step_retrying {found : Int32} :
    (u.thread (.retrying w found)).step F spurious memory =
      .done (memory, u.thread (.again w found)) := by
  simp [thread, retryCode, Thread.step, Line.step, Expr.value, Expr.part, Scope.get?, Scope.assign,
    outcomeCell, wantedCell, seenCell, Held.component, Datum.sameType]

/-- Behind a turn everything but the word last seen goes out of scope. -/
theorem leave_turn {found : Int32} {c c' : Cell} :
    Scope.leave (c :: c' :: u.seenCell found :: u.scope) (u.scope.length + 1) =
      u.seenCell found :: u.scope :=
  Scope.leave_append [c, c'] (u.seenCell found :: u.scope)

theorem step_again {found : Int32} :
    (u.thread (.again w found)).step F spurious memory =
      .done (memory, u.thread (.turning found)) := by
  simp [thread, Thread.step, Thread.unwind, nextTurn, leave_turn]

theorem step_exchanged :
    (u.thread (.exchanged w)).step F spurious memory = .done (memory, u.thread (.leaving w)) := by
  simp [thread, verdictCode, Thread.step, Expr.value, Expr.part, Scope.get?, outcomeCell,
    Held.component, Thread.enter]

theorem step_leaving :
    (u.thread (.leaving w)).step F spurious memory = .done (memory, u.thread (.left w)) := by
  simp [thread, Thread.step, Line.step, Thread.unwind, nextTurn, leave_turn]

theorem step_left :
    (u.thread (.left w)).step F spurious memory = .done (memory, u.thread (.finished w)) := by
  have hperform : (Expr.bitcast ⟨.f32, 1⟩ (.ident (.seen u.stmt.id))).perform F
      (u.seenCell w :: u.scope) spurious memory =
        (Expr.bitcast ⟨.f32, 1⟩ (.ident (.seen u.stmt.id))).value F (u.seenCell w :: u.scope) >>=
          fun d => .done (memory, .datum d) := rfl
  simp [thread, resultCode, Thread.step, Line.step, hperform, value_bits, Held.typed, Datum.typed,
    tempCell]

include hstart in
/-- **What one step does.**  It touches memory only where an exchange goes through, and then puts
the result of the update there. -/
theorem step_thread (p : Phase) (spurious : Bool) (hread : memory.read r i = .done v)
    (hwrite : memory.write r i (u.apply v) = .done memory') :
    (u.thread p).step F spurious memory =
      .done (if p.wins v spurious then memory' else memory, u.thread (p.next v spurious)) := by
  cases p with
  | start => exact step_start hread
  | loaded => rfl
  | turning => exact step_turning hstart
  | attempting => exact step_attempting hstart hread hwrite
  | failed => exact step_failed
  | retrying => exact step_retrying
  | again => exact step_again
  | exchanged => exact step_exchanged
  | leaving => exact step_leaving
  | left => exact step_left
  | finished => rfl

end Steps

/-! ## Runs -/

section Runs

variable {n : Nat} (us : Fin n → FloatUpdate F ctx st₀ o r i)

/-- The invocations in their phases. -/
def machine (memory : Memory) (ps : Fin n → Phase) : Machine n :=
  ⟨memory, fun k => (us k).thread (ps k)⟩

/-- What updates make of a word, one after the other. -/
def applied (order : List (Fin n)) (w : Int32) : Int32 :=
  order.foldl (fun w k => (us k).apply w) w

/-- The updates in `order` have taken effect, each on the word that the one before it had left. -/
structure Linearized (memory₀ : Memory) (w₀ : Int32) (memory : Memory) (ps : Fin n → Phase)
    (order : List (Fin n)) : Prop where
  write_eq : memory₀.write r i (applied us order w₀) = .done memory
  nodup : order.Nodup
  trying : ∀ k, k ∉ order → (ps k).won? = none
  won : ∀ before k after, order = before ++ k :: after →
    (ps k).won? = some (applied us before w₀)

variable {us} {memory₀ memory : Memory} {w₀ : Int32} {ps : Fin n → Phase} {order : List (Fin n)}

/-- A step of the invocations is a step of one of them. -/
theorem machine_step {k : Fin n} {spurious : Bool} {memory' : Memory} {p : Phase}
    (h : ((us k).thread (ps k)).step F spurious memory = .done (memory', (us k).thread p)) :
    (machine us memory ps).step F k spurious =
      .done (machine us memory' (Function.update ps k p)) := by
  have hthreads : Function.update (machine us memory ps).threads k ((us k).thread p) =
      (machine us memory' (Function.update ps k p)).threads := by
    funext j
    by_cases hj : j = k
    · subst hj
      simp [machine]
    · simp [machine, Function.update_of_ne hj]
  have hk : (machine us memory ps).threads k = (us k).thread (ps k) := rfl
  rw [Machine.step, hk]
  change ((us k).thread (ps k)).step F spurious memory >>= _ = _
  rw [h, Run.done_bind]
  dsimp only
  rw [hthreads]
  rfl

/-- At the start no update has taken effect. -/
theorem Linearized.start (us : Fin n → FloatUpdate F ctx st₀ o r i)
    (h : memory₀.read r i = .done w₀) :
    Linearized us memory₀ w₀ memory₀ (fun _ => .start) [] where
  write_eq := Memory.write_self h
  nodup := nodup_nil
  trying _ _ := rfl
  won before k after h := by simp at h

namespace Linearized

/-- A step that changes nothing that counts. -/
theorem wait (h : Linearized us memory₀ w₀ memory ps order) {k : Fin n} {p : Phase}
    (hp : p.won? = (ps k).won?) :
    Linearized us memory₀ w₀ memory (Function.update ps k p) order := by
  have hwon (j : Fin n) : (Function.update ps k p j).won? = (ps j).won? := by
    by_cases hj : j = k
    · rw [hj, Function.update_self, hp]
    · rw [Function.update_of_ne hj]
  exact
    { write_eq := h.write_eq
      nodup := h.nodup
      trying := fun j hj => (hwon j).trans (h.trying j hj)
      won := fun before j after heq => (hwon j).trans (h.won before j after heq) }

/-- A step in which an update takes effect. -/
theorem take (h : Linearized us memory₀ w₀ memory ps order) {k : Fin n} {p : Phase}
    {memory' : Memory} (hk : (ps k).won? = none) (hp : p.won? = some (applied us order w₀))
    (hwrite : memory.write r i ((us k).apply (applied us order w₀)) = .done memory') :
    Linearized us memory₀ w₀ memory' (Function.update ps k p) (order ++ [k]) := by
  have hnew : k ∉ order := by
    intro hmem
    obtain ⟨before, after, heq⟩ := append_of_mem hmem
    rw [h.won before k after heq] at hk
    cases hk
  refine ⟨?_, ?_, fun j hj => ?_, fun before j after heq => ?_⟩
  · rw [← Memory.write_of_write h.write_eq, applied, foldl_append]
    exact hwrite
  · rw [← concat_eq_append, nodup_concat]
    exact ⟨hnew, h.nodup⟩
  · obtain ⟨hmem, hjk⟩ : j ∉ order ∧ j ≠ k := by simpa using hj
    rw [Function.update_of_ne hjk, h.trying j hmem]
  · rcases eq_nil_or_concat after with rfl | ⟨after, last, rfl⟩
    · obtain ⟨rfl, hlast⟩ := append_inj' heq rfl
      cases hlast
      rw [Function.update_self, hp]
    · rw [concat_eq_append, ← cons_append, ← List.append_assoc] at heq
      obtain ⟨hinit, -⟩ := append_inj' heq rfl
      have hjk : j ≠ k := by
        rintro rfl
        exact hnew (hinit ▸ mem_append_right before mem_cons_self)
      rw [Function.update_of_ne hjk, h.won before j after hinit]

/-- **One step keeps the order of the updates**, or adds the invocation that took it. -/
theorem step (hstart : st₀.values = []) (h : Linearized us memory₀ w₀ memory ps order) (k : Fin n)
    (spurious : Bool) : ∃ memory' order', (machine us memory ps).step F k spurious =
      .done (machine us memory'
        (Function.update ps k ((ps k).next (applied us order w₀) spurious))) ∧
      Linearized us memory₀ w₀ memory'
        (Function.update ps k ((ps k).next (applied us order w₀) spurious)) order' ∧
      applied us order' w₀ = if (ps k).wins (applied us order w₀) spurious then
        (us k).apply (applied us order w₀) else applied us order w₀ := by
  have hread := Memory.read_of_write h.write_eq
  obtain ⟨memory', hwrite⟩ := Memory.exists_write hread ((us k).apply (applied us order w₀))
  have hstep := step_thread (u := us k) hstart (ps k) spurious hread hwrite
  have hnext := (ps k).won?_next (applied us order w₀) spurious
  rw [machine_step hstep]
  by_cases hwins : (ps k).wins (applied us order w₀) spurious = true
  · rw [if_pos hwins] at hnext
    refine ⟨memory', order ++ [k], by rw [if_pos hwins],
      h.take (Phase.won?_of_wins hwins) hnext hwrite, ?_⟩
    rw [if_pos hwins, applied, foldl_append]
    rfl
  · rw [if_neg hwins] at hnext
    exact ⟨memory, order, by rw [if_neg hwins], h.wait hnext, by rw [if_neg hwins]⟩

/-- **A run keeps the order of the updates**, and adds to it. -/
theorem run (hstart : st₀.values = []) (h : Linearized us memory₀ w₀ memory ps order)
    (schedule : List (Fin n × Bool)) : ∃ memory' ps' order',
      Machine.run F schedule (machine us memory ps) = .done (machine us memory' ps') ∧
      Linearized us memory₀ w₀ memory' ps' order' := by
  induction schedule generalizing memory ps order with
  | nil => exact ⟨memory, ps, order, rfl, h⟩
  | cons e schedule ih =>
    obtain ⟨memory₁, order₁, hstep, hnext, -⟩ := h.step hstart e.1 e.2
    obtain ⟨memory', ps', order', hrun, hlast⟩ := ih hnext
    refine ⟨memory', ps', order', ?_, hlast⟩
    rw [Machine.run, hstep, Run.done_bind, hrun]

/-- An invocation that is left alone comes to its end, and the others stay where they are. -/
theorem finish_one (hstart : st₀.values = []) (h : Linearized us memory₀ w₀ memory ps order)
    (k : Fin n) : ∃ more memory' ps' order',
      Machine.run F more (machine us memory ps) = .done (machine us memory' ps') ∧
      Linearized us memory₀ w₀ memory' ps' order' ∧ (ps' k).isFinished = true ∧
      ∀ j ≠ k, ps' j = ps j := by
  induction hrank : (ps k).rank (applied us order w₀) using Nat.strongRecOn
    generalizing memory ps order with
  | ind rank ih =>
    by_cases hfinished : (ps k).isFinished = true
    · exact ⟨[], memory, ps, order, rfl, h, hfinished, fun _ _ => rfl⟩
    · rw [Bool.not_eq_true] at hfinished
      obtain ⟨memory₁, order₁, hstep, hnext, hword⟩ := h.step hstart k false
      have hless := Phase.rank_next (applied us order w₀)
        ((us k).apply (applied us order w₀)) hfinished
      rw [← hword, hrank] at hless
      obtain ⟨more, memory', ps', order', hrun, hlast, hk, hothers⟩ :=
        ih _ hless hnext (by rw [Function.update_self])
      refine ⟨(k, false) :: more, memory', ps', order', ?_, hlast, hk, fun j hj => ?_⟩
      · rw [Machine.run, hstep, Run.done_bind, hrun]
      · rw [hothers j hj, Function.update_of_ne hj]

/-- All invocations come to their end if they are left alone one after the other. -/
theorem finish (hstart : st₀.values = []) (h : Linearized us memory₀ w₀ memory ps order)
    (ks : List (Fin n)) : ∃ more memory' ps' order',
      Machine.run F more (machine us memory ps) = .done (machine us memory' ps') ∧
      Linearized us memory₀ w₀ memory' ps' order' ∧ ∀ k ∈ ks, (ps' k).isFinished = true := by
  induction ks with
  | nil => exact ⟨[], memory, ps, order, rfl, h, nofun⟩
  | cons k ks ih =>
    obtain ⟨more, memory₁, ps₁, order₁, hrun₁, h₁, hks⟩ := ih
    obtain ⟨last, memory', ps', order', hrun, h', hk, hothers⟩ := h₁.finish_one hstart k
    refine ⟨more ++ last, memory', ps', order', ?_, h', fun j hj => ?_⟩
    · rw [Machine.run_append, hrun₁, Run.done_bind, hrun]
    · by_cases hjk : j = k
      · rw [hjk, hk]
      · rw [hothers j hjk, hks j ((mem_cons.1 hj).resolve_left hjk)]

/-- When all invocations are at their end, every update has taken effect once. -/
theorem perm (h : Linearized us memory₀ w₀ memory ps order)
    (hfinished : ∀ k, (ps k).isFinished = true) : order.Perm (List.finRange n) := by
  refine (perm_ext_iff_of_nodup h.nodup (nodup_finRange n)).2 fun k => ?_
  refine ⟨fun _ => mem_finRange k, fun _ => ?_⟩
  by_contra hk
  obtain ⟨w, hw⟩ := Phase.exists_of_isFinished (hfinished k)
  have hnone := h.trying k hk
  rw [hw] at hnone
  cases hnone

end Linearized

end Runs

/-- The temporary of an invocation that is at its end. -/
theorem value_temp {u : FloatUpdate F ctx st₀ o r i} {w : Int32} :
    (Expr.ident (.temp u.stmt.id)).value F (u.thread (.finished w)).scope =
      .done (.float w.toUInt32) := by
  simp [Expr.value, thread, Scope.get?, tempCell, Held.value]

/-- A thread is over when its update is. -/
theorem finished_thread {u : FloatUpdate F ctx st₀ o r i} {p : Phase} :
    (u.thread p).Finished ↔ p.isFinished = true := by
  constructor
  · intro h
    cases p with
    | finished => rfl
    | start =>
      have hcode : u.lowering.code = .done := h.1
      rw [u.code_eq] at hcode
      cases hcode
    | again => cases h.2
    | _ => cases h.1
  · intro h
    obtain ⟨w, rfl⟩ := Phase.exists_of_isFinished h
    exact ⟨rfl, rfl⟩

/-- All invocations about to run the code of their updates. -/
def setOut {n : Nat} (us : Fin n → FloatUpdate F ctx st₀ o r i) (memory : Memory) : Machine n :=
  ⟨memory, fun k => ⟨(us k).lowering.code, [], (us k).scope⟩⟩

/-- **Atomic updates of floats are neither lost nor doubled.**  Any number of invocations update the
same word, each with its own operator and operand.  However their steps are interleaved and however
often an exchange fails for no reason, no invocation gets stuck, and all of them can still come to
their end.  When they have, the updates have taken effect once each, in some order, and nothing else
in memory has changed; and each invocation was given the word that its own update was applied to. -/
theorem linearizable {n : Nat} (us : Fin n → FloatUpdate F ctx st₀ o r i) (hstart : st₀.values = [])
    {memory : Memory} {w₀ : Int32} (hread : memory.read r i = .done w₀)
    (schedule : List (Fin n × Bool)) :
    ∃ final, Machine.run F schedule (setOut us memory) = .done final ∧
      (final.Finished → ∃ order : List (Fin n), order.Perm (List.finRange n) ∧
        memory.write r i (applied us order w₀) = .done final.memory ∧
        ∀ before k after, order = before ++ k :: after →
          (Expr.ident (.temp (us k).stmt.id)).value F (final.threads k).scope =
            .done (.float (applied us before w₀).toUInt32)) ∧
      ∃ more last, Machine.run F (schedule ++ more) (setOut us memory) = .done last ∧
        last.Finished := by
  have hsetOut : setOut us memory = machine us memory fun _ => .start := rfl
  obtain ⟨memory', ps, order, hrun, h⟩ := (Linearized.start us hread).run hstart schedule
  obtain ⟨more, memory₂, ps₂, order₂, hmore, -, hend⟩ := h.finish hstart (List.finRange n)
  refine ⟨machine us memory' ps, hrun, fun hfinished => ?_, more, machine us memory₂ ps₂, ?_, ?_⟩
  · have hphases (k : Fin n) : (ps k).isFinished = true := finished_thread.1 (hfinished k)
    refine ⟨order, h.perm hphases, h.write_eq, fun before k after heq => ?_⟩
    obtain ⟨w, hw⟩ := Phase.exists_of_isFinished (hphases k)
    have hwon := h.won before k after heq
    rw [hw] at hwon
    cases hwon
    change Expr.value F ((us k).thread (ps k)).scope _ = _
    rw [hw, value_temp]
  · rw [Machine.run_append, hsetOut, hrun, Run.done_bind, hmore]
  · exact fun k => finished_thread.2 (hend k (mem_finRange k))

/-- A parallel loop in which every invocation adds a random number to the same float. -/
def sumOfRandoms : List Action :=
  [.create (.const (.i32 256)), .create (.const (.i32 0)), .create (.rangeFor (.value 0) false),
    .openGuard .rangeFor 2, .create (.rand .f32),
    .create (.globalPtr ⟨0, [1], .f32, 1, 0, 0, true⟩ [1] 0), .create (.atomic .add 4 3),
    .closeGuard 0]

/-- Operators that take bit patterns for numbers. -/
def plainFloats : Floats := ⟨(· + ·), (· - ·), max, min⟩

/-- Two invocations that have drawn different numbers. -/
theorem linearizable_sumOfRandoms : ∃ s m, Session.run {} sumOfRandoms = .ok s ∧
    s.builder.finish = .ok m ∧
    ∃ (us : Fin 2 → FloatUpdate plainFloats ⟨m, {}, ⟨0, 0⟩, .compute, some 2, []⟩ {} (m.outline 1)
        (.rootAtomic 0) 0) (memory : Memory), (us 0).bits = 0x3f800000 ∧ (us 1).bits = 0x40000000 ∧
      memory.read (.rootAtomic 0) 0 = .done 7 ∧
      ∃ schedule final order, Machine.run plainFloats schedule (setOut us memory) = .done final ∧
        final.Finished ∧ order.Perm [0, 1] ∧
        memory.write (.rootAtomic 0) 0 (applied us order 7) = .done final.memory := by
  have hupdates : ∃ s m, Session.run {} sumOfRandoms = .ok s ∧ s.builder.finish = .ok m ∧
      ∃ us : Fin 2 → FloatUpdate plainFloats ⟨m, {}, ⟨0, 0⟩, .compute, some 2, []⟩ {} (m.outline 1)
        (.rootAtomic 0) 0, (us 0).bits = 0x3f800000 ∧ (us 1).bits = 0x40000000 :=
    ⟨_, _, rfl, rfl, fun k =>
      { stmt := ⟨5, 1, .atomic .add 4 3⟩
        op := .add
        dest := 4
        source := 3
        state := _
        target := _
        operand := _
        lowering := _
        scope := [⟨.temp 4, false, .datum (.int 0)⟩,
          ⟨.temp 3, false, .datum (.float (if k = 0 then 0x3f800000 else 0x40000000))⟩]
        bits := if k = 0 then 0x3f800000 else 0x40000000
        reached := .later rfl (.later rfl .here)
        kind_eq := rfl
        lower_eq := rfl
        target_eq := rfl
        isFloat := rfl
        operand_eq := rfl
        place_eq := rfl
        bits_eq := rfl }, rfl, rfl⟩
  obtain ⟨s, m, hrun, hfinish, us, hbits, hbits'⟩ := hupdates
  have hread : Memory.read (fun _ => [7]) (.rootAtomic 0) 0 = .done 7 := by
    simp [Memory.read, indexLimit]
  obtain ⟨-, -, -, more, last, hlast, hfinished⟩ := linearizable us rfl hread []
  obtain ⟨final, hfinal, hend, -⟩ := linearizable us rfl hread more
  rw [nil_append] at hlast
  obtain rfl : last = final := Run.done.inj (hlast.symm.trans hfinal)
  obtain ⟨order, hperm, hwrite, -⟩ := hend hfinished
  exact ⟨s, m, hrun, hfinish, us, fun _ => [7], hbits, hbits', hread, more, last, order, hlast,
    hfinished, hperm, hwrite⟩

end FloatUpdate

end Codegen

end WgslKernel
