import WgslKernel.Proofs.Module.Groups
import WgslKernel.Proofs.Module.Nesting

/-!
# Reads across offloads

What a statement may read is said here without `Module.partition` (`Module.Readable`).  The
partition answers with the groups, if every offload is self-contained, and otherwise with the first
foreign read of the first offload that has one.
-/

namespace WgslKernel

open List

namespace Module

variable {m : Module} {o : Offload} {i x : StmtId}

/-! ## Foreign reads -/

/-- Statement `x` is one of the statements `top`, or nested in one at any depth. -/
def NestedIn (m : Module) (top : List StmtId) (x : StmtId) : Prop :=
  ∃ i ∈ top, m.Under i x

/-- Statement `x` is a load of a temporary that bounds the parallel loop `i`, the offload. -/
def IsLoadedBound (m : Module) (o : Offload) (i x : StmtId) : Prop :=
  o.kind = .rangeFor ∧ o.stmts = [i] ∧
    ∃ body ptr ty offset, m.kind? i = some (.rangeFor (.value x) false body) ∧
      m.kind? x = some (.temporaryLoad ptr) ∧ m.kind? ptr = some (.temporary ty offset)

/-- What statement `i` of an offload may read. -/
def Readable (m : Module) (o : Offload) (i x : StmtId) : Prop :=
  m.NestedIn o.stmts x ∨ (∃ c, m.kind? x = some (.const c)) ∨ m.IsLoadedBound o i x

/-- Statement `i` reads only what it may. -/
def ReadsReadable (m : Module) (o : Offload) (i : StmtId) : Prop :=
  ∀ s, m.stmts[i]? = some s → ∀ x ∈ s.kind.operands, m.Readable o i x

/-- All statements nested in an offload read only what they may. -/
def SelfContained (m : Module) (o : Offload) : Prop :=
  ∀ i, m.NestedIn o.stmts i → m.ReadsReadable o i

/-- Of the nested statements with a foreign read `i` is the first, and `x` its first such operand.
-/
def FirstForeign (m : Module) (o : Offload) (i x : StmtId) : Prop :=
  m.NestedIn o.stmts i ∧ (∀ j < i, m.NestedIn o.stmts j → m.ReadsReadable o j) ∧
    ∃ s before after, m.stmts[i]? = some s ∧ s.kind.operands = before ++ x :: after ∧
      (∀ y ∈ before, m.Readable o i y) ∧ ¬ m.Readable o i x

/-! ## Nested statements in ascending order -/

theorem pairwise_insertAscending {l : List StmtId} (h : l.Pairwise (· ≤ ·)) (i : StmtId) :
    (insertAscending i l).Pairwise (· ≤ ·) := by
  induction l with
  | nil => simp [insertAscending]
  | cons y l ih =>
    obtain ⟨hy, hl⟩ := pairwise_cons.1 h
    rw [insertAscending]
    split
    · rename_i hle
      refine pairwise_cons.2 ⟨fun z hz => ?_, h⟩
      rcases mem_cons.1 hz with rfl | hz
      · exact hle
      · exact Nat.le_trans hle (hy z hz)
    · rename_i hle
      refine pairwise_cons.2 ⟨fun z hz => ?_, ih hl⟩
      rcases mem_insertAscending.1 hz with rfl | hz
      · exact Nat.le_of_not_le hle
      · exact hy z hz

theorem pairwise_ascending (l : List StmtId) : (ascending l).Pairwise (· ≤ ·) := by
  induction l with
  | nil => exact .nil
  | cons i l ih => exact pairwise_insertAscending ih i

/-- The nested statements of a group are found, in ascending order. -/
theorem Inv.nested_eq_ok (h : m.Inv) (ho : o ∈ m.groups) :
    ∃ members, m.nested o.stmts = .ok members ∧ members.Pairwise (· ≤ ·) ∧
      ∀ x, x ∈ members ↔ m.NestedIn o.stmts x := by
  have hnested := nested_eq_subtrees fun i hi => h.found_of_mem_groups ho hi
  refine ⟨_, hnested, pairwise_ascending _, fun x => ?_⟩
  rw [mem_ascending, mem_flatMap]
  constructor
  · rintro ⟨i, hi, hx⟩
    obtain ⟨s, hs⟩ := h.found_of_mem_groups ho hi
    exact ⟨i, hi, (h.mem_subtree hs).1 hx⟩
  · rintro ⟨i, hi, hx⟩
    obtain ⟨s, hs⟩ := h.found_of_mem_groups ho hi
    exact ⟨i, hi, (h.mem_subtree hs).2 hx⟩

/-- The outline of a group holds what is nested in it. -/
theorem Inv.nestedIn_of_mem_outlineOf (h : m.Inv) (ho : o ∈ m.groups) {t : Stmt}
    (ht : t ∈ (m.outlineOf m.outline o.stmts).stmts) : m.NestedIn o.stmts t.id := by
  obtain ⟨members, hmembers, -, hnested⟩ := h.nested_eq_ok ho
  exact (hnested t.id).1 ((mem_nested hmembers).2 (mem_map_of_mem ht))

/-! ## Checking a statement -/

theorem isDynamicBound_iff {kind : Kind} : m.isDynamicBound kind x = true ↔
    ∃ serial body ptr ty offset, kind = .rangeFor (.value x) serial body ∧
      m.kind? x = some (.temporaryLoad ptr) ∧ m.kind? ptr = some (.temporary ty offset) := by
  constructor
  · intro h
    unfold isDynamicBound at h
    split at h
    · rename_i v serial body
      rw [Bool.and_eq_true, beq_iff_eq] at h
      obtain ⟨rfl, h⟩ := h
      split at h
      · rename_i ptr hload
        split at h
        · rename_i ty offset htemp
          exact ⟨serial, body, ptr, ty, offset, rfl, hload, htemp⟩
        · cases h
      · cases h
    · cases h
  · rintro ⟨serial, body, ptr, ty, offset, rfl, hload, htemp⟩
    simp [isDynamicBound, hload, htemp]

/-- The exception for loaded bounds applies to the statement that is the offload. -/
theorem loadedBound_iff (ho : o ∈ m.groups) {s : Stmt} (hs : m.stmts[i]? = some s) :
    (o.root? == some i && m.isDynamicBound s.kind x) = true ↔ m.IsLoadedBound o i x := by
  have hkind : m.kind? i = some s.kind := by simp [kind?, hs]
  rw [Bool.and_eq_true, beq_iff_eq, isDynamicBound_iff]
  constructor
  · rintro ⟨hroot, serial, body, ptr, ty, offset, hfor, hload, htemp⟩
    rcases standalone_of_mem_groups ho with hserial | ⟨r, kind, hstmts, hr, hk⟩
    · simp [Offload.root?, hserial] at hroot
    · have hri : r = i := by
        unfold Offload.root? at hroot
        split at hroot
        · cases hroot
        · simpa [hstmts] using hroot
      subst hri
      rw [hkind, hfor] at hr
      cases hr
      cases serial with
      | true => cases hk
      | false =>
        exact ⟨(Option.some.inj hk).symm, hstmts, body, ptr, ty, offset, by rw [hkind, hfor],
          hload, htemp⟩
  · rintro ⟨hrange, hstmts, body, ptr, ty, offset, hfor, hload, htemp⟩
    rw [hkind] at hfor
    refine ⟨by simp [Offload.root?, hrange, hstmts], false, body, ptr, ty, offset, ?_, hload, htemp⟩
    exact Option.some.inj hfor

theorem checkReads_of_none {members : List StmtId} {s : Stmt} (hs : m.stmts[i]? = some s)
    (hfind : (s.kind.operands.find? fun y => !m.mayRead o members s y) = none) :
    m.checkReads o members i = .ok () :=
  bind_eq_ok.2 ⟨s, orFault_eq_ok.2 (stmt_eq_ok.2 hs), by rw [hfind]⟩

theorem checkReads_of_some {members : List StmtId} {s : Stmt} (hs : m.stmts[i]? = some s)
    (hfind : (s.kind.operands.find? fun y => !m.mayRead o members s y) = some x) :
    m.checkReads o members i = .error (.error (.crossOffloadReference i x)) :=
  bind_eq_error.2 (.inr ⟨s, orFault_eq_ok.2 (stmt_eq_ok.2 hs), by rw [hfind]; rfl⟩)

section Check

variable {members : List StmtId} {s : Stmt} (h : m.Inv) (ho : o ∈ m.groups)
  (hmembers : ∀ x, x ∈ members ↔ m.NestedIn o.stmts x)
include h ho hmembers

/-- The check of a read is exact. -/
theorem mayRead_iff (hs : m.stmts[i]? = some s) :
    m.mayRead o members s x = true ↔ m.Readable o i x := by
  have hconst : (m.kind? x).any Kind.isConst = true ↔ ∃ c, m.kind? x = some (.const c) := by
    cases m.kind? x with
    | none => simp
    | some kind => cases kind <;> simp [Kind.isConst]
  rw [mayRead, Bool.or_eq_true, Bool.or_eq_true, h.id_eq hs, loadedBound_iff ho hs, hconst,
    contains_iff_mem, hmembers, or_assoc]
  rfl

/-- The operand that a check of statement `i` finds is the first one it may not read. -/
theorem find?_mayRead_eq_some (hs : m.stmts[i]? = some s) :
    (s.kind.operands.find? fun y => !m.mayRead o members s y) = some x ↔
      ∃ before after, s.kind.operands = before ++ x :: after ∧ (∀ y ∈ before, m.Readable o i y) ∧
        ¬ m.Readable o i x := by
  have hread (y : StmtId) := mayRead_iff h ho hmembers (x := y) hs
  rw [List.find?_eq_some_iff_append]
  constructor
  · rintro ⟨hx, before, after, hops, hbefore⟩
    refine ⟨before, after, hops, fun y hy => (hread y).1 ?_, fun hx' => ?_⟩
    · simpa using hbefore y hy
    · simp [(hread x).2 hx'] at hx
  · rintro ⟨before, after, hops, hbefore, hx⟩
    refine ⟨?_, before, after, hops, fun y hy => by simp [(hread y).2 (hbefore y hy)]⟩
    simpa using fun hx' => hx ((hread x).1 hx')

theorem checkReads_eq_ok (hs : m.stmts[i]? = some s) :
    m.checkReads o members i = .ok () ↔ m.ReadsReadable o i := by
  have hread (y : StmtId) := mayRead_iff h ho hmembers (x := y) hs
  have hnone : (s.kind.operands.find? fun y => !m.mayRead o members s y) = none ↔
      m.ReadsReadable o i := by
    rw [List.find?_eq_none]
    constructor
    · intro hall t ht y hy
      rw [hs] at ht
      cases ht
      exact (hread y).1 (by simpa using hall y hy)
    · intro hall y hy
      simp [(hread y).2 (hall s hs y hy)]
  rw [← hnone]
  cases hfind : s.kind.operands.find? fun y => !m.mayRead o members s y with
  | none => simp [checkReads_of_none hs hfind]
  | some x => simp [checkReads_of_some hs hfind]

theorem checkReads_eq_error (hs : m.stmts[i]? = some s) {e : Halt} :
    m.checkReads o members i = .error e ↔
      ∃ x before after, s.kind.operands = before ++ x :: after ∧
        (∀ y ∈ before, m.Readable o i y) ∧ ¬ m.Readable o i x ∧
        e = .error (.crossOffloadReference i x) := by
  constructor
  · intro herror
    cases hfind : s.kind.operands.find? fun y => !m.mayRead o members s y with
    | none =>
      rw [checkReads_of_none hs hfind] at herror
      cases herror
    | some x =>
      rw [checkReads_of_some hs hfind] at herror
      obtain ⟨before, after, hops, hbefore, hx⟩ :=
        (find?_mayRead_eq_some h ho hmembers hs).1 hfind
      exact ⟨x, before, after, hops, hbefore, hx, (Except.error.inj herror).symm⟩
  · rintro ⟨x, before, after, hops, hbefore, hx, rfl⟩
    exact checkReads_of_some hs
      ((find?_mayRead_eq_some h ho hmembers hs).2 ⟨before, after, hops, hbefore, hx⟩)

end Check

theorem Inv.exists_of_nestedIn (h : m.Inv) (ho : o ∈ m.groups) (hi : m.NestedIn o.stmts i) :
    ∃ s, m.stmts[i]? = some s := by
  obtain ⟨top, htop, hunder⟩ := hi
  obtain ⟨s, hs⟩ := h.found_of_mem_groups ho htop
  obtain ⟨t, ht, -⟩ := h.encloses_of_under hs hunder
  exact ⟨t, ht⟩

/-- The check of an offload is exact. -/
theorem Inv.checkSelfContained_eq_ok (h : m.Inv) (ho : o ∈ m.groups) :
    m.checkSelfContained o = .ok () ↔ m.SelfContained o := by
  obtain ⟨members, hnested, -, hmembers⟩ := h.nested_eq_ok ho
  rw [checkSelfContained, hnested]
  change members.forM (m.checkReads o members) = .ok () ↔ _
  rw [forM_eq_ok]
  constructor
  · intro hall i hi
    obtain ⟨s, hs⟩ := h.exists_of_nestedIn ho hi
    exact (checkReads_eq_ok h ho hmembers hs).1 (hall i ((hmembers i).2 hi))
  · intro hself i hi
    have hi := (hmembers i).1 hi
    obtain ⟨s, hs⟩ := h.exists_of_nestedIn ho hi
    exact (checkReads_eq_ok h ho hmembers hs).2 (hself i hi)

/-- A check that fails names the first foreign read. -/
theorem Inv.checkSelfContained_eq_error (h : m.Inv) (ho : o ∈ m.groups) {e : Halt} :
    m.checkSelfContained o = .error e ↔
      ∃ i x, m.FirstForeign o i x ∧ e = .error (.crossOffloadReference i x) := by
  obtain ⟨members, hnested, hsorted, hmembers⟩ := h.nested_eq_ok ho
  rw [checkSelfContained, hnested]
  change members.forM (m.checkReads o members) = .error e ↔ _
  rw [forM_eq_error]
  constructor
  · rintro ⟨before, i, after, rfl, hbefore, herror⟩
    have hi : m.NestedIn o.stmts i := (hmembers i).1 (by simp)
    obtain ⟨s, hs⟩ := h.exists_of_nestedIn ho hi
    obtain ⟨x, pre, post, hops, hpre, hx, rfl⟩ := (checkReads_eq_error h ho hmembers hs).1 herror
    refine ⟨i, x, ⟨hi, fun j hj hnest => ?_, s, pre, post, hs, hops, hpre, hx⟩, rfl⟩
    have hjbefore : j ∈ before := by
      refine (mem_append.1 ((hmembers j).2 hnest)).resolve_right fun hmem => ?_
      have htail := (pairwise_append.1 hsorted).2.1
      rcases mem_cons.1 hmem with rfl | hmem
      · exact Nat.lt_irrefl j hj
      · exact Nat.not_le.2 hj ((pairwise_cons.1 htail).1 j hmem)
    obtain ⟨t, ht⟩ := h.exists_of_nestedIn ho hnest
    exact (checkReads_eq_ok h ho hmembers ht).1 (hbefore j hjbefore)
  · rintro ⟨i, x, ⟨hi, hleast, s, pre, post, hs, hops, hpre, hx⟩, rfl⟩
    obtain ⟨before, after, rfl, hnew⟩ := eq_append_cons_of_mem ((hmembers i).2 hi)
    refine ⟨before, i, after, rfl, fun j hj => ?_, ?_⟩
    · have hji : j ≤ i := (pairwise_append.1 hsorted).2.2 j hj i mem_cons_self
      have hlt : j < i := Nat.lt_of_le_of_ne hji fun heq => hnew (heq ▸ hj)
      have hnest : m.NestedIn o.stmts j := (hmembers j).1 (mem_append_left _ hj)
      obtain ⟨t, ht⟩ := h.exists_of_nestedIn ho hnest
      exact (checkReads_eq_ok h ho hmembers ht).2 (hleast j hlt hnest)
    · exact (checkReads_eq_error h ho hmembers hs).2 ⟨x, pre, post, hops, hpre, hx, rfl⟩

/-! ## Checking all offloads -/

/-- A partition succeeds if all offloads are self-contained. -/
theorem Inv.partition_eq_ok (h : m.Inv) {os : List Offload} :
    m.partition = .ok os ↔ os = m.groups ∧ ∀ o ∈ m.groups, m.SelfContained o := by
  have hall : m.groups.forM m.checkSelfContained = .ok () ↔ ∀ o ∈ m.groups, m.SelfContained o :=
    forM_eq_ok.trans (forall₂_congr fun o ho => h.checkSelfContained_eq_ok ho)
  rw [partition, bind_eq_ok, ← hall]
  constructor
  · rintro ⟨⟨⟩, hchecked, hos⟩
    exact ⟨(Except.ok.inj hos).symm, hchecked⟩
  · rintro ⟨rfl, hchecked⟩
    exact ⟨(), hchecked, rfl⟩

/-- A partition fails at the first foreign read. -/
theorem Inv.partition_eq_error (h : m.Inv) {e : Halt} :
    m.partition = .error e ↔
      ∃ before o after i x, m.groups = before ++ o :: after ∧ (∀ q ∈ before, m.SelfContained q) ∧
        m.FirstForeign o i x ∧ e = .error (.crossOffloadReference i x) := by
  have hsplit : m.partition = .error e ↔ m.groups.forM m.checkSelfContained = .error e := by
    rw [partition, bind_eq_error]
    simp
  rw [hsplit, forM_eq_error]
  constructor
  · rintro ⟨before, o, after, hgroups, hbefore, herror⟩
    have ho : o ∈ m.groups := by simp [hgroups]
    obtain ⟨i, x, hfirst, rfl⟩ := (h.checkSelfContained_eq_error ho).1 herror
    refine ⟨before, o, after, i, x, hgroups, fun q hq => ?_, hfirst, rfl⟩
    exact (h.checkSelfContained_eq_ok (by simp [hgroups, hq])).1 (hbefore q hq)
  · rintro ⟨before, o, after, i, x, hgroups, hbefore, hfirst, rfl⟩
    have ho : o ∈ m.groups := by simp [hgroups]
    refine ⟨before, o, after, hgroups, fun q hq => ?_, ?_⟩
    · exact (h.checkSelfContained_eq_ok (by simp [hgroups, hq])).2 (hbefore q hq)
    · exact (h.checkSelfContained_eq_error ho).2 ⟨i, x, hfirst, rfl⟩

end Module

namespace Session

variable {actions : List Action} {s : Session} {m : Module}

/-- **What partitioning a finished module answers.**  The groups are the one split of the top level,
constants left out, into statements that stand alone and runs of others, with the kinds these have
by themselves.  If each of them is self-contained the answer is the groups; otherwise it is the
first foreign read of the first group that is not. -/
theorem partition_iff (hrun : Session.run {} actions = .ok s)
    (hfinish : s.builder.finish = .ok m) :
    (∀ groups, Splits m.alone m.topLevel groups ↔ groups = m.groups.map Offload.stmts) ∧
    (∀ o ∈ m.groups, m.detectKind o.stmts = .ok o.kind) ∧
    (∀ os, m.partition = .ok os ↔ os = m.groups ∧ ∀ o ∈ m.groups, m.SelfContained o) ∧
    ∀ e, m.partition = .error e ↔
      ∃ before o after i x, m.groups = before ++ o :: after ∧ (∀ q ∈ before, m.SelfContained q) ∧
        m.FirstForeign o i x ∧ e = .error (.crossOffloadReference i x) := by
  obtain ⟨hinv, -⟩ := inv_of_finish hrun hfinish
  refine ⟨fun groups => ⟨fun h => h.unique m.splits_groups, ?_⟩,
    fun o ho => hinv.detectKind_of_mem_groups ho, fun os => hinv.partition_eq_ok,
    fun e => hinv.partition_eq_error⟩
  rintro rfl
  exact m.splits_groups

/-- A parallel loop with a loaded bound, and a branch in it that reads another value from there. -/
def leaking : List Action :=
  [.create (.argLoad .i32 0), .create (.temporary .i32 0), .create (.temporaryLoad 1),
    .create (.const (.i32 1)), .create (.rangeFor (.value 2) false), .openGuard .rangeFor 4,
    .create (.loopIndex 4), .create (.branch 5), .openGuard (.branch true) 6,
    .create (.binary .add 3 5), .create (.binary .add 5 0), .closeGuard 1, .closeGuard 0,
    .create (.unary .neg 0)]

/-- The branch is the first that reads what it may not. -/
theorem partition_iff_leaking :
    ∃ s m, Session.run {} leaking = .ok s ∧ s.builder.finish = .ok m ∧
      m.groups = [⟨.serial, [0, 1, 2]⟩, ⟨.rangeFor, [4]⟩, ⟨.serial, [9]⟩] ∧
      Splits m.alone [0, 1, 2, 4, 9] [[0, 1, 2], [4], [9]] ∧
      m.partition = .error (.error (.crossOffloadReference 8 0)) ∧
      ∃ o ∈ m.groups, m.FirstForeign o 8 0 := by
  have hrun : ∃ s m, Session.run {} leaking = .ok s ∧ s.builder.finish = .ok m ∧
      m.groups = [⟨.serial, [0, 1, 2]⟩, ⟨.rangeFor, [4]⟩, ⟨.serial, [9]⟩] ∧
      m.topLevel = [0, 1, 2, 4, 9] ∧
      m.partition = .error (.error (.crossOffloadReference 8 0)) := ⟨_, _, rfl, rfl, rfl, rfl, rfl⟩
  obtain ⟨s, m, hrun, hfinish, hgroups, htop, herror⟩ := hrun
  obtain ⟨hsplits, -, -, hiff⟩ := partition_iff hrun hfinish
  have hsplit := (hsplits [[0, 1, 2], [4], [9]]).2 (by simp [hgroups])
  obtain ⟨before, o, after, i, x, heq, -, hfirst, he⟩ := (hiff _).1 herror
  cases he
  exact ⟨s, m, hrun, hfinish, hgroups, htop ▸ hsplit, herror, o, by simp [heq], hfirst⟩

end Session

end WgslKernel
