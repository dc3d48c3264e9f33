import Mathlib.Data.List.Flatten
import WgslKernel.Proofs.Module.Offload

/-!
# What a walk finds under a statement

A statement is in the walk of a block exactly if the block is its own or one around it, and in the
walk of another statement exactly if that one is among those it is nested in.
-/

namespace WgslKernel

open List

/-- No statement owns more than two blocks. -/
theorem Kind.childBlocks_length_le (kind : Kind) : kind.childBlocks.length ≤ 2 := by
  cases kind <;> simp [childBlocks]

namespace Module

variable {m : Module} {i x : Nat} {b c : Nat} {s t : Stmt}

/-! ## Walks in pieces -/

/-- The numbers of a statement and of all that is nested in it, in walk order. -/
def subtree (m : Module) (i : StmtId) : List StmtId := (m.outlineOf m.outline [i]).ids

theorem outlineOf_ids (m : Module) (ids : List StmtId) :
    (m.outlineOf m.outline ids).ids = ids.flatMap m.subtree := by
  induction ids with
  | nil => rfl
  | cons i ids ih =>
    rw [flatMap_cons, ← ih, subtree]
    cases hs : m.stmts[i]? with
    | none => simp [outlineOf, hs]
    | some s => rw [outlineOf_cons_ids hs]

/-- The statements under a list of statements are those of the walks under them. -/
theorem nested_eq_subtrees {top : List StmtId}
    (htop : ∀ t ∈ top, ∃ s, m.stmts[t]? = some s) :
    m.nested top = .ok (ascending (top.flatMap m.subtree)) := by
  have houtlines : top.mapM m.outlineAt = .ok (top.map fun t => m.outlineOf m.outline [t]) := by
    rw [mapM_eq_ok, List.forall₂_map_right_iff, List.forall₂_same]
    intro t ht
    obtain ⟨s, hs⟩ := htop t ht
    exact bind_eq_ok.2 ⟨s, stmt_eq_ok.2 hs, rfl⟩
  refine bind_eq_ok.2 ⟨_, houtlines, ?_⟩
  rw [flatMap_map]
  rfl

/-- A walk of a block is that of its statements. -/
theorem Inv.outline_ids (h : m.Inv) (b : Nat) :
    (m.outline b).ids = (m.blockStmts b).flatMap m.subtree := by
  rw [h.outline_eq, outlineOf_ids]

/-- A statement, and then what is in its blocks. -/
theorem Inv.subtree_eq (h : m.Inv) (hs : m.stmts[i]? = some s) :
    m.subtree i = i :: ((below m.outline s 0).ids ++ (below m.outline s 1).ids) := by
  have hnil : (m.outlineOf m.outline []).ids = [] := rfl
  rw [subtree, outlineOf_cons hs, Outline.ids_cons, hnil, append_nil, h.id_eq hs]

/-- The walk of a block is part of the walk of its owner, behind the owner. -/
theorem outline_sublist_below (hc : c ∈ s.kind.childBlocks) :
    (m.outline c).ids.Sublist ((below m.outline s 0).ids ++ (below m.outline s 1).ids) := by
  obtain ⟨k, hk⟩ := mem_iff_getElem?.1 hc
  have hlt : k < s.kind.childBlocks.length := (List.getElem?_eq_some_iff.1 hk).1
  have hbelow : below m.outline s k = m.outline c := by simp [below, hk]
  have hcases : k = 0 ∨ k = 1 := by
    have := s.kind.childBlocks_length_le
    omega
  rcases hcases with rfl | rfl
  · rw [hbelow]
    exact sublist_append_left ..
  · rw [hbelow]
    exact sublist_append_right ..

theorem Inv.outline_sublist_subtree (h : m.Inv) (hs : m.stmts[i]? = some s)
    (hc : c ∈ s.kind.childBlocks) : (m.outline c).ids.Sublist (m.subtree i) := by
  rw [h.subtree_eq hs]
  exact (outline_sublist_below hc).cons i

theorem Inv.mem_blockStmts_self (h : m.Inv) (hs : m.stmts[i]? = some s) :
    i ∈ m.blockStmts s.block := (h.wellFormed.listed i s hs).1

theorem Inv.subtree_sublist_outline (h : m.Inv) (hs : m.stmts[i]? = some s) :
    (m.subtree i).Sublist (m.outline s.block).ids := by
  have hsub := (singleton_sublist.2 (h.mem_blockStmts_self hs)).flatMap m.subtree
  rwa [flatMap_singleton, ← h.outline_ids] at hsub

/-! ## Down and up -/

/-- A block inside another is it, or inside a block made by one of its statements. -/
theorem Encloses.eq_or_child (h : m.Encloses c b) :
    c = b ∨ ∃ d, m.parent? d = some c ∧ m.Encloses d b := by
  induction h with
  | refl => exact .inl rfl
  | @step b p hp _ ih =>
    rcases ih with rfl | ⟨d, hd, henc⟩
    · exact .inr ⟨b, hp, .refl⟩
    · exact .inr ⟨d, hd, .step hp henc⟩

/-- A block with a parent is owned by a statement of the parent. -/
theorem Inv.exists_owner (h : m.Inv) (hp : m.parent? c = some b) :
    ∃ (i : Nat) (s : Stmt), m.stmts[i]? = some s ∧ s.block = b ∧ c ∈ s.kind.childBlocks := by
  obtain ⟨blk, i, s, hblk, howner, hs, rfl⟩ := parent?_eq_some.1 hp
  have hc : c ≠ rootBlock := Nat.ne_of_gt (Nat.zero_lt_of_lt (h.parent_lt hp))
  obtain ⟨o, t, ho, ht, hmem, -⟩ := h.owned hblk hc
  rw [howner] at ho
  cases ho
  rw [hs] at ht
  cases ht
  exact ⟨i, s, hs, rfl, hmem⟩

/-- **The walk of a block comes to the statements inside it, and to no others.** -/
theorem Inv.mem_outline_ids_iff (h : m.Inv) (b : Nat) :
    x ∈ (m.outline b).ids ↔ ∃ t, m.stmts[x]? = some t ∧ m.Encloses b t.block := by
  refine ⟨h.mem_outline_ids b, ?_⟩
  refine h.block_induction (P := fun b => (∃ t, m.stmts[x]? = some t ∧ m.Encloses b t.block) →
    x ∈ (m.outline b).ids) (fun b ih => ?_) b
  rintro ⟨t, ht, henc⟩
  rcases henc.eq_or_child with rfl | ⟨d, hd, henc⟩
  · refine (h.subtree_sublist_outline ht).subset ?_
    rw [h.subtree_eq ht]
    exact mem_cons_self
  · have hx : x ∈ (m.outline d).ids := ih d hd ⟨t, ht, henc⟩
    obtain ⟨i, s, hs, rfl, hmem⟩ := h.exists_owner hd
    exact (h.subtree_sublist_outline hs).subset ((h.outline_sublist_subtree hs hmem).subset hx)

/-- What is under a statement is walked under it. -/
theorem Inv.mem_subtree (h : m.Inv) (hs : m.stmts[i]? = some s) :
    x ∈ m.subtree i ↔ m.Under i x := by
  constructor
  · intro hx
    obtain ⟨j, hj, s', hs', hfound⟩ := h.mem_outlineOf_ids hx
    obtain rfl := mem_singleton.1 hj
    rcases hfound with rfl | ⟨c, hc, hx⟩
    · exact .inl rfl
    · obtain ⟨t, ht, henc⟩ := h.mem_outline_ids c hx
      exact .inr ⟨s', t, c, hs', hc, ht, henc⟩
  · rintro (rfl | ⟨s', t, c, hs', hc, ht, henc⟩)
    · rw [h.subtree_eq hs]
      exact mem_cons_self
    · exact (h.outline_sublist_subtree hs' hc).subset
        ((h.mem_outline_ids_iff c).2 ⟨t, ht, henc⟩)

/-- The statements around a block are the owners of the blocks around it. -/
theorem Inv.mem_enclosing_iff (h : m.Inv) (hb : b < m.blocks.size) :
    i ∈ m.enclosing b ↔
      ∃ s c, m.stmts[i]? = some s ∧ c ∈ s.kind.childBlocks ∧ m.Encloses c b := by
  constructor
  · refine h.climb_induction (P := fun b => i ∈ m.enclosing b →
      ∃ s c, m.stmts[i]? = some s ∧ c ∈ s.kind.childBlocks ∧ m.Encloses c b) ?_
      (fun j s b hs hmem ih hi => ?_) hb
    · rw [h.enclosing_root]
      simp
    rw [h.enclosing_child hs hmem] at hi
    rcases mem_cons.1 hi with rfl | hi
    · exact ⟨s, b, hs, hmem, .refl⟩
    · obtain ⟨t, c, ht, hc, henc⟩ := ih hi
      exact ⟨t, c, ht, hc, .step (h.parent?_child hs hmem) henc⟩
  · rintro ⟨s, c, hs, hc, henc⟩
    clear hb
    induction henc with
    | refl =>
      rw [h.enclosing_child hs hc]
      exact mem_cons_self
    | step hp _ ih =>
      obtain ⟨j, u, hu, rfl, hmem⟩ := h.exists_owner hp
      rw [h.enclosing_child hu hmem]
      exact mem_cons_of_mem _ ih

/-- **A walk of a statement comes to those nested in it**, and to itself. -/
theorem Inv.mem_subtree_iff (h : m.Inv) (ht : m.stmts[x]? = some t) (hs : m.stmts[i]? = some s) :
    x ∈ m.subtree i ↔ i ∈ x :: m.enclosing t.block := by
  rw [h.mem_subtree hs, mem_cons, h.mem_enclosing_iff (h.block_lt ht)]
  constructor
  · rintro (rfl | ⟨s', t', c, hs', hc, ht', henc⟩)
    · exact .inl rfl
    · rw [ht] at ht'
      cases ht'
      exact .inr ⟨s', c, hs', hc, henc⟩
  · rintro (rfl | ⟨s', c, hs', hc, henc⟩)
    · exact .inl rfl
    · exact .inr ⟨s', t, c, hs', hc, ht, henc⟩

/-- The root is around every block. -/
theorem Inv.encloses_root (h : m.Inv) (hb : b < m.blocks.size) : m.Encloses rootBlock b :=
  h.climb_induction (P := fun b => m.Encloses rootBlock b) .refl
    (fun _ _ _ hs hmem ih => .step (h.parent?_child hs hmem) ih) hb

end Module

end WgslKernel
