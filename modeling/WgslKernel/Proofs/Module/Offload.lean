import WgslKernel.Partition
import WgslKernel.Proofs.Module.Outline

/-!
# The statements of an offload

Offloads cut the top level of a module into pieces; those that are not serial hold one statement.
The statements nested in an offload are those of the outline that is walked for it.
-/

namespace WgslKernel

open List

namespace Module

variable {m : Module} {o : Offload}

/-! ## Cutting the top level -/

theorem mem_flushRun {run : List StmtId} (h : o ∈ flushRun run) : o = ⟨.serial, run⟩ := by
  unfold flushRun at h
  split at h
  · simp at h
  · exact mem_singleton.1 h

theorem stmts_sublist_of_mem_groupsFrom {run ids : List StmtId} (h : o ∈ m.groupsFrom run ids) :
    o.stmts.Sublist (run ++ ids) := by
  induction ids generalizing run with
  | nil =>
    rw [mem_flushRun h, append_nil]
  | cons id ids ih =>
    have hskip : (run ++ ids).Sublist (run ++ id :: ids) :=
      (List.Sublist.refl run).append (sublist_cons_self id ids)
    rw [groupsFrom] at h
    split at h
    · exact (ih h).trans hskip
    split at h
    · exact (ih h).trans hskip
    split at h
    · rcases mem_append.1 h with h | h
      · rw [mem_flushRun h]
        exact sublist_append_left run (id :: ids)
      rcases mem_cons.1 h with rfl | h
      · exact (singleton_sublist.2 mem_cons_self).trans (sublist_append_right run _)
      · exact ((ih h).trans (sublist_cons_self id ids)).trans (sublist_append_right run _)
    · have := ih h
      rwa [List.append_assoc] at this

/-- The statements of an offload stand at the top level, in order. -/
theorem stmts_sublist_of_mem_groups (h : o ∈ m.groups) :
    o.stmts.Sublist (m.blockStmts rootBlock) := by
  simpa using stmts_sublist_of_mem_groupsFrom h

/-- The statements of an offload are there. -/
theorem Inv.found_of_mem_groups (h : m.Inv) (ho : o ∈ m.groups) {i : StmtId} (hi : i ∈ o.stmts) :
    ∃ s, m.stmts[i]? = some s := by
  obtain ⟨s, hs, -⟩ := h.of_mem_blockStmts ((stmts_sublist_of_mem_groups ho).subset hi)
  exact ⟨s, hs⟩

/-- Offloads that are not serial have one statement. -/
theorem standalone_of_mem_groupsFrom {run ids : List StmtId} (h : o ∈ m.groupsFrom run ids) :
    o.kind = .serial ∨ ∃ i kind, o.stmts = [i] ∧ m.kind? i = some kind ∧
      OffloadKind.standalone? kind = some o.kind := by
  induction ids generalizing run with
  | nil => exact .inl (by rw [mem_flushRun h])
  | cons id ids ih =>
    rw [groupsFrom] at h
    split at h
    · exact ih h
    · rename_i kind hkind
      split at h
      · exact ih h
      split at h
      · rename_i k hk
        rcases mem_append.1 h with h | h
        · exact .inl (by rw [mem_flushRun h])
        rcases mem_cons.1 h with rfl | h
        · exact .inr ⟨id, kind, rfl, hkind, hk⟩
        · exact ih h
      · exact ih h

/-- An offload that is not serial is one statement. -/
theorem standalone_of_mem_groups (h : o ∈ m.groups) :
    o.kind = .serial ∨ ∃ i kind, o.stmts = [i] ∧ m.kind? i = some kind ∧
      OffloadKind.standalone? kind = some o.kind := standalone_of_mem_groupsFrom h

/-- An offload that is not serial has a root. -/
theorem exists_root_of_mem_groups (h : o ∈ m.groups) (hkind : o.kind ≠ .serial) :
    ∃ root, o.stmts = [root] := by
  obtain ⟨root, kind, hstmts, -, -⟩ := (standalone_of_mem_groups h).resolve_left hkind
  exact ⟨root, hstmts⟩

theorem mem_groups_of_partition {os : List Offload} (h : m.partition = .ok os) (ho : o ∈ os) :
    o ∈ m.groups := by
  obtain ⟨⟨⟩, -, h⟩ := bind_eq_ok.1 h
  cases h
  exact ho

/-- The statements nested in an offload are found before it is checked. -/
theorem nested_of_partition {os : List Offload} (h : m.partition = .ok os) (ho : o ∈ m.groups) :
    ∃ members, m.nested o.stmts = .ok members := by
  obtain ⟨⟨⟩, hchecked, -⟩ := bind_eq_ok.1 h
  obtain ⟨members, hnested, -⟩ := bind_eq_ok.1 (forM_eq_ok.1 hchecked o ho)
  exact ⟨members, orFault_eq_ok.1 hnested⟩

/-! ## Nested statements -/

theorem mem_insertAscending {x i : StmtId} {l : List StmtId} :
    x ∈ insertAscending i l ↔ x = i ∨ x ∈ l := by
  induction l with
  | nil => simp [insertAscending]
  | cons y l ih =>
    rw [insertAscending]
    split
    · simp
    · simp only [mem_cons, ih]
      tauto

theorem mem_ascending {x : StmtId} {l : List StmtId} : x ∈ ascending l ↔ x ∈ l := by
  induction l with
  | nil => simp [ascending]
  | cons y l ih =>
    rw [ascending, foldr_cons, mem_insertAscending, ← ascending, ih, mem_cons]

theorem outlineOf_cons_ids {under : BlockId → Outline} {i : StmtId} {ids : List StmtId} {s : Stmt}
    (hs : m.stmts[i]? = some s) : (m.outlineOf under (i :: ids)).ids =
      (m.outlineOf under [i]).ids ++ (m.outlineOf under ids).ids := by
  have hnil : (m.outlineOf under []).ids = [] := rfl
  rw [outlineOf_cons hs, outlineOf_cons hs, Outline.ids_cons, Outline.ids_cons, hnil]
  simp

/-- **The nested statements of a list are those of its outline.** -/
theorem mem_nested {top ids : List StmtId} (h : m.nested top = .ok ids) {x : StmtId} :
    x ∈ ids ↔ x ∈ (m.outlineOf m.outline top).ids := by
  obtain ⟨outlines, houtlines, h⟩ := bind_eq_ok.1 h
  cases h
  have heq : outlines.flatMap Outline.ids = (m.outlineOf m.outline top).ids := by
    rw [mapM_eq_ok] at houtlines
    clear h
    induction houtlines with
    | nil => rfl
    | @cons i o top outlines ho _ ih =>
      obtain ⟨s, hs, ho⟩ := bind_eq_ok.1 ho
      cases ho
      rw [flatMap_cons, ih, ← outlineOf_cons_ids (stmt_eq_ok.1 hs)]
  rw [mem_ascending, ← heq]
  rfl

theorem Ready.start (b : BlockId) (ids : List StmtId) : m.Ready b ids [] [] :=
  ⟨fun _ hx => absurd hx not_mem_nil, fun _ _ _ hx => absurd hx not_mem_nil⟩

/-- Nothing was walked before the statements of an offload. -/
theorem Inv.placed_offload (h : m.Inv) (ho : o ∈ m.groups) :
    (m.outlineOf m.outline o.stmts).Placed m [] [] [] := by
  have hsub := stmts_sublist_of_mem_groups ho
  have hnodup : (m.blockStmts rootBlock).Nodup :=
    (h.wellFormed.ascending rootBlock).imp fun hlt => Nat.ne_of_lt hlt
  have hplaced := h.placed rootBlock (hsub.nodup hnodup) (fun i hi => hsub.subset hi)
    (.start rootBlock o.stmts)
  rwa [h.enclosing_root] at hplaced

/-- Nothing was walked before the body of a statement but the statement itself. -/
theorem Inv.placed_body (h : m.Inv) {i : Nat} {s : Stmt} (hs : m.stmts[i]? = some s)
    (hroot : s.block = rootBlock) {b : BlockId} (hb : b ∈ s.kind.childBlocks) :
    (m.outline b).Placed m [] [] [i] := by
  have henc : m.enclosing b = [i] := by
    rw [h.enclosing_child hs hb, hroot, h.enclosing_root]
  have hnodup : (m.blockStmts b).Nodup :=
    (h.wellFormed.ascending b).imp fun hlt => Nat.ne_of_lt hlt
  rw [h.outline_eq, ← henc]
  exact h.placed b hnodup (fun i hi => hi) (.start b (m.blockStmts b))

end Module

end WgslKernel
