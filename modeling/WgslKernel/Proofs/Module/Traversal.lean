import WgslKernel.Proofs.Module.Partition

/-!
# Down through blocks and up through owners

The climb starts at a block and passes the owners of the blocks around it; the descent starts at a
stack of statements and puts the statements of its blocks in the place of the one on top.  Neither
counts its steps.  Both end in every module that was built step by step, and they agree.
-/

namespace WgslKernel

open List

namespace Module

variable {m : Module} {b : BlockId} {i : StmtId} {s : Stmt} {top chain visited : List StmtId}

/-! ## The climb -/

/-- The climb from a block to the root, and the statements it passes. -/
inductive Climbs (m : Module) : BlockId → List StmtId → Prop where
  | arrive {b : BlockId} {blk : Block} (hblk : m.blocks[b]? = some blk)
    (howner : blk.owner = none) : Climbs m b []
  | pass {b : BlockId} {blk : Block} {owner : StmtId} {s : Stmt} {chain : List StmtId}
    (hblk : m.blocks[b]? = some blk) (howner : blk.owner = some owner)
    (hs : m.stmts[owner]? = some s) (hrest : Climbs m s.block chain) : Climbs m b (owner :: chain)

/-- There is one way up. -/
theorem Climbs.unique (h : m.Climbs b chain) {chain' : List StmtId} (h' : m.Climbs b chain') :
    chain = chain' := by
  induction h generalizing chain' with
  | arrive hblk howner =>
    cases h' with
    | arrive => rfl
    | pass hblk' howner' => simp_all
  | pass hblk howner hs _ ih =>
    cases h' with
    | arrive hblk' howner' => simp_all
    | pass hblk' howner' hs' hrest' =>
      cases hblk.symm.trans hblk'
      cases howner.symm.trans howner'
      cases hs.symm.trans hs'
      rw [ih hrest']

/-- **Every climb ends**, and it passes the statements around the block. -/
theorem Inv.climbs_iff (h : m.Inv) (hb : b < m.blocks.size) :
    m.Climbs b chain ↔ chain = m.enclosing b := by
  have hclimbs : m.Climbs b (m.enclosing b) := by
    refine h.climb_induction (P := fun b => m.Climbs b (m.enclosing b)) ?_
      (fun i s b hs hmem ih => ?_) hb
    · obtain ⟨blk, hblk, hnone⟩ := h.root
      rw [h.enclosing_root]
      exact .arrive hblk hnone
    · obtain ⟨blk, hblk, howner⟩ := (h.children hs).2 b hmem
      rw [h.enclosing_child hs hmem]
      exact .pass hblk howner hs ih
  constructor
  · intro hchain
    exact hchain.unique hclimbs
  · rintro rfl
    exact hclimbs

/-- A climb passes older and older statements, and starts below everything in its block. -/
theorem Inv.enclosing_descending (h : m.Inv) (hb : b < m.blocks.size) :
    (m.enclosing b).Pairwise (· > ·) ∧ ∀ i ∈ m.blockStmts b, ∀ j ∈ m.enclosing b, j < i := by
  refine h.climb_induction (P := fun b => (m.enclosing b).Pairwise (· > ·) ∧
    ∀ i ∈ m.blockStmts b, ∀ j ∈ m.enclosing b, j < i) ?_ (fun o s b hs hmem ih => ?_) hb
  · simp [h.enclosing_root]
  obtain ⟨hpairs, hbelow⟩ := ih
  have howner := hbelow o (h.mem_blockStmts_self hs)
  rw [h.enclosing_child hs hmem]
  refine ⟨pairwise_cons.2 ⟨howner, hpairs⟩, fun i hi j hj => ?_⟩
  obtain ⟨blk, hblk, hi⟩ := mem_blockStmts.1 hi
  have hroot : b ≠ rootBlock :=
    Nat.ne_of_gt (Nat.zero_lt_of_lt (h.parent_lt (h.parent?_child hs hmem)))
  obtain ⟨o', s', ho', hs', hmem', -, hlt⟩ := h.owned hblk hroot
  obtain rfl := h.owner_unique hs' hs hmem' hmem
  rcases mem_cons.1 hj with rfl | hj
  · exact hlt i hi
  · exact Nat.lt_trans (howner j hj) (hlt i hi)

/-! ## The descent -/

/-- The descent from a stack of statements, and the statements it visits. -/
inductive Descends (m : Module) : List StmtId → List StmtId → Prop where
  | done : Descends m [] []
  | visit {i : StmtId} {s : Stmt} {rest visited : List StmtId} (hs : m.stmts[i]? = some s)
    (hblocks : ∀ b ∈ s.kind.childBlocks, b < m.blocks.size)
    (hrest : Descends m (s.kind.childBlocks.flatMap m.blockStmts ++ rest) visited) :
    Descends m (i :: rest) (i :: visited)

/-- There is one way down. -/
theorem Descends.unique (h : m.Descends top visited) {visited' : List StmtId}
    (h' : m.Descends top visited') : visited = visited' := by
  induction h generalizing visited' with
  | done =>
    cases h'
    rfl
  | visit hs _ _ ih =>
    cases h' with
    | visit hs' _ hrest' =>
      cases hs.symm.trans hs'
      rw [ih hrest']

/-- Under a statement is what is under the statements of its blocks. -/
theorem Inv.subtree_eq_flatMap (h : m.Inv) (hs : m.stmts[i]? = some s) :
    m.subtree i = i :: (s.kind.childBlocks.flatMap m.blockStmts).flatMap m.subtree := by
  have hbelow : (below m.outline s 0).ids ++ (below m.outline s 1).ids =
      s.kind.childBlocks.flatMap fun b => (m.outline b).ids := by
    have hlength := s.kind.childBlocks_length_le
    unfold below
    match s.kind.childBlocks, hlength with
    | [], _ | [b], _ | [b, c], _ => simp
  simp only [h.outline_ids] at hbelow
  rw [h.subtree_eq hs, hbelow, flatMap_assoc]

/-- **Every descent ends**, and visits what is under each entry of the stack in turn. -/
theorem Inv.descends_iff (h : m.Inv) (htop : ∀ t ∈ top, ∃ s, m.stmts[t]? = some s) :
    m.Descends top visited ↔ visited = top.flatMap m.subtree := by
  have hdescends : m.Descends top (top.flatMap m.subtree) := by
    -- each visit takes one statement off what is still to be visited
    induction hn : (top.flatMap m.subtree).length using Nat.strongRecOn generalizing top with
    | ind n ih =>
      cases top with
      | nil => exact .done
      | cons i rest =>
        obtain ⟨⟨s, hs⟩, hrest⟩ := forall_mem_cons.1 htop
        have hwalk : (i :: rest).flatMap m.subtree =
            i :: (s.kind.childBlocks.flatMap m.blockStmts ++ rest).flatMap m.subtree := by
          rw [flatMap_cons, h.subtree_eq_flatMap hs, flatMap_append]
          rfl
        rw [hwalk] at hn ⊢
        refine .visit hs (fun b hb => ?_) (ih _ (by rw [← hn]; simp) (fun t ht => ?_) rfl)
        · obtain ⟨blk, hblk, -⟩ := (h.children hs).2 b hb
          exact (Array.getElem?_eq_some_iff.1 hblk).1
        · rcases mem_append.1 ht with ht | ht
          · obtain ⟨b, -, ht⟩ := mem_flatMap.1 ht
            exact h.wellFormed.defined b t ht
          · exact hrest t ht
  constructor
  · intro hvisited
    exact hvisited.unique hdescends
  · rintro rfl
    exact hdescends

/-! ## How often a statement is found -/

theorem perm_insertAscending (i : StmtId) (l : List StmtId) :
    (insertAscending i l).Perm (i :: l) := by
  induction l with
  | nil => exact .refl _
  | cons y l ih =>
    rw [insertAscending]
    split
    · exact .refl _
    · exact (ih.cons y).trans (.swap ..)

theorem perm_ascending (l : List StmtId) : (ascending l).Perm l := by
  induction l with
  | nil => exact .refl _
  | cons i l ih => exact (perm_insertAscending i _).trans (ih.cons i)

/-- Nothing is walked twice under a statement. -/
theorem Inv.nodup_subtree (h : m.Inv) (hs : m.stmts[i]? = some s) : (m.subtree i).Nodup := by
  have hplaced := h.placed s.block (nodup_singleton i)
    (by simpa using h.mem_blockStmts_self hs) (.start s.block [i])
  exact hplaced.nodup

/-- **Down and up agree**: a statement is under as many entries as are it or around it. -/
theorem Inv.count_subtrees (h : m.Inv) (hs : m.stmts[i]? = some s)
    (htop : ∀ t ∈ top, ∃ s, m.stmts[t]? = some s) :
    (top.flatMap m.subtree).count i =
      top.countP fun t => decide (t = i ∨ t ∈ m.enclosing s.block) := by
  induction top with
  | nil => rfl
  | cons t top ih =>
    obtain ⟨⟨u, hu⟩, htop⟩ := forall_mem_cons.1 htop
    have hmem : i ∈ m.subtree t ↔ t = i ∨ t ∈ m.enclosing s.block :=
      (h.mem_subtree_iff hs hu).trans mem_cons
    rw [flatMap_cons, count_append, ih htop, (h.nodup_subtree hu).count, countP_cons, Nat.add_comm]
    simp [hmem]

end Module

namespace Session

variable {actions : List Action} {s : Session}

/-- **The two searches describe one tree.**  In every module that a run has built:

* the climb from a block ends with the statements around it, each younger than the next, so that
  none is passed twice;
* the descent from any list of statements ends, and what it visited is what is listed as nested,
  in ascending order;
* a statement is listed once for each entry of the list that is the statement itself or is passed
  by the climb from it. -/
theorem searches_agree (hrun : Session.run {} actions = .ok s) :
    (∀ b < s.builder.module.blocks.size,
      (∀ chain, s.builder.module.Climbs b chain ↔ chain = s.builder.module.enclosing b) ∧
      (s.builder.module.enclosing b).Pairwise (· > ·) ∧ (s.builder.module.enclosing b).Nodup) ∧
    ∀ top : List StmtId, (∀ t ∈ top, t < s.builder.module.nextId) →
      ∃ visited, (∀ out, s.builder.module.Descends top out ↔ out = visited) ∧
        s.builder.module.nested top = .ok (Module.ascending visited) ∧
        (Module.ascending visited).Pairwise (· ≤ ·) ∧
        ∀ (i : StmtId) (t : Stmt), s.builder.module.stmts[i]? = some t →
          (Module.ascending visited).count i =
            top.countP fun j => decide (j = i ∨ j ∈ s.builder.module.enclosing t.block) := by
  have hinv := (inv_of_run hrun).module
  refine ⟨fun b hb => ?_, fun top htop => ?_⟩
  · obtain ⟨hdescending, -⟩ := hinv.enclosing_descending hb
    exact ⟨fun chain => hinv.climbs_iff hb, hdescending, hdescending.imp Nat.ne_of_gt⟩
  · have hfound : ∀ t ∈ top, ∃ x, s.builder.module.stmts[t]? = some x := fun t ht =>
      ⟨_, Array.getElem?_eq_getElem (htop t ht)⟩
    refine ⟨_, fun out => hinv.descends_iff hfound, Module.nested_eq_subtrees hfound,
      Module.pairwise_ascending _, fun i t ht => ?_⟩
    rw [(Module.perm_ascending _).count_eq]
    exact hinv.count_subtrees ht hfound

/-- Statement 6 stands in a branch in a loop, and is listed once for each of the two. -/
theorem searches_agree_reentry : ∃ s, Session.run {} reentry = .ok s ∧
    s.builder.module.Climbs 2 [3, 1] ∧
    s.builder.module.nested [3, 0, 1] = .ok [0, 1, 2, 3, 3, 4, 4, 6, 6] ∧
    (∃ visited, s.builder.module.Descends [3, 0, 1] visited) ∧
    [3, 0, 1].countP (fun j => decide (j = 6 ∨ j ∈ s.builder.module.enclosing 2)) = 2 := by
  have hrun : ∃ s t, Session.run {} reentry = .ok s ∧ s.builder.module.nextId = 7 ∧
      s.builder.module.blocks.size = 4 ∧ s.builder.module.enclosing 2 = [3, 1] ∧
      s.builder.module.nested [3, 0, 1] = .ok [0, 1, 2, 3, 3, 4, 4, 6, 6] ∧
      s.builder.module.stmts[6]? = some t ∧ t.block = 2 := ⟨_, _, rfl, rfl, rfl, rfl, rfl, rfl, rfl⟩
  obtain ⟨s, t, hs, hnext, hsize, henclosing, hlisted, ht, hblock⟩ := hrun
  obtain ⟨hclimbs, hdescends⟩ := searches_agree hs
  obtain ⟨visited, hvisited, hnested, -, hcount⟩ := hdescends [3, 0, 1] (by simp [hnext])
  have hsorted := Except.ok.inj (hnested.symm.trans hlisted)
  have hsix := hcount 6 t ht
  rw [hsorted, hblock] at hsix
  exact ⟨s, hs, ((hclimbs 2 (by simp [hsize])).1 _).2 henclosing.symm, hlisted,
    ⟨visited, (hvisited _).2 rfl⟩, hsix.symm⟩

end Session

end WgslKernel
