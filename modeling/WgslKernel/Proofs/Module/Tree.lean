import WgslKernel.Proofs.Builder.WellFormed

/-!
# The blocks around a block

`Module.enclosing` climbs from a block to the root, bounded by the number of blocks.  In a module
that was built step by step the bound is never reached, so the list obeys the equation one expects.
-/

namespace WgslKernel

namespace Module

variable {m : Module} {n a b c p : Nat} {kind : Kind}

/-! ## Blocks ordered by inclusion -/

/-- Outer blocks have smaller numbers. -/
theorem Inv.le_of_encloses (h : m.Inv) (henc : m.Encloses a b) : a ≤ b := by
  induction henc with
  | refl => exact Nat.le_refl a
  | step hp _ ih => exact Nat.le_trans ih (Nat.le_of_lt (h.parent_lt hp))

/-- A block is reached from inside its parent or not at all. -/
theorem Encloses.eq_or_parent (h : m.Encloses a b) (hp : m.parent? b = some p) :
    a = b ∨ m.Encloses a p := by
  cases h with
  | refl => exact .inl rfl
  | step hp' h =>
    rw [hp] at hp'
    cases hp'
    exact .inr h

/-- Of two blocks around a block one is inside the other. -/
theorem Encloses.comparable (ha : m.Encloses a b) (hc : m.Encloses c b) :
    m.Encloses a c ∨ m.Encloses c a := by
  induction ha with
  | refl => exact .inr hc
  | step hp ha ih =>
    rcases hc.eq_or_parent hp with rfl | hc
    · exact .inl (.step hp ha)
    · exact ih hc

/-- A statement's own block is the parent of the blocks it owns. -/
theorem Inv.parent?_child (h : m.Inv) {i : Nat} {s : Stmt} (hs : m.stmts[i]? = some s)
    (hb : b ∈ s.kind.childBlocks) : m.parent? b = some s.block := by
  obtain ⟨blk, hblk, howner⟩ := (h.children hs).2 b hb
  exact parent?_eq_some.2 ⟨blk, i, s, hblk, howner, hs, rfl⟩

/-- Of two blocks with one parent, neither lies inside the other. -/
theorem Inv.eq_of_encloses (h : m.Inv) (ha : m.parent? a = some p) (hb : m.parent? b = some p)
    (henc : m.Encloses a b) : a = b := by
  rcases henc.eq_or_parent hb with rfl | henc
  · rfl
  · have hle := h.le_of_encloses henc
    have hlt := h.parent_lt ha
    exact absurd hle (Nat.not_le.2 hlt)

/-- Induction over blocks from the inside out: inner blocks have larger numbers. -/
theorem Inv.block_induction (h : m.Inv) {P : Nat → Prop}
    (step : ∀ b : Nat, (∀ c : Nat, m.parent? c = some b → P c) → P b) (b : Nat) : P b := by
  induction hk : m.blocks.size - b using Nat.strongRecOn generalizing b with
  | ind k ih =>
    refine step b fun c hc => ?_
    have hlt : b < c := h.parent_lt hc
    obtain ⟨blk, -, -, hblk, -⟩ := parent?_eq_some.1 hc
    have hsize : c < m.blocks.size := (Array.getElem?_eq_some_iff.1 hblk).1
    exact ih (m.blocks.size - c) (by omega) c rfl

/-! ## The climb to the root -/

/-- A climb that may take more steps than there are blocks below does not depend on how many. -/
theorem Inv.ancestors_eq (h : m.Inv) {k l : Nat} (hk : b < k) (hl : b < l) :
    m.ancestors k b = m.ancestors l b := by
  induction k generalizing b l with
  | zero => omega
  | succ k ih =>
    obtain ⟨l, rfl⟩ := Nat.exists_eq_succ_of_ne_zero (Nat.ne_of_gt (Nat.zero_lt_of_lt hl))
    simp only [ancestors]
    split
    · rfl
    · rename_i owner howner
      split
      · rfl
      · rename_i s hs
        obtain ⟨blk, hblk, ho⟩ := Option.bind_eq_some_iff.1 howner
        have hlt : s.block < b := h.parent_lt (parent?_eq_some.2 ⟨blk, owner, s, hblk, ho, hs, rfl⟩)
        rw [ih (Nat.lt_of_lt_of_le hlt (Nat.le_of_lt_succ hk))
          (Nat.lt_of_lt_of_le hlt (Nat.le_of_lt_succ hl))]

@[simp] theorem Inv.enclosing_root (h : m.Inv) : m.enclosing rootBlock = [] := by
  obtain ⟨blk, hblk, hnone⟩ := h.root
  obtain ⟨k, hk⟩ := Nat.exists_eq_succ_of_ne_zero (Nat.ne_of_gt h.root_lt)
  simp [enclosing, hk, ancestors, hblk, hnone]

/-- Around a block owned by a statement are that statement and what is around it. -/
theorem Inv.enclosing_child (h : m.Inv) {i : Nat} {s : Stmt} (hs : m.stmts[i]? = some s)
    (hb : b ∈ s.kind.childBlocks) : m.enclosing b = i :: m.enclosing s.block := by
  obtain ⟨blk, hblk, howner⟩ := (h.children hs).2 b hb
  have hlt : s.block < b := h.parent_lt (h.parent?_child hs hb)
  have hsize : b < m.blocks.size := (Array.getElem?_eq_some_iff.1 hblk).1
  obtain ⟨k, hk⟩ := Nat.exists_eq_succ_of_ne_zero (Nat.ne_of_gt (Nat.zero_lt_of_lt hsize))
  have hunfold : m.ancestors (k + 1) b = i :: m.ancestors k s.block := by
    simp [ancestors, hblk, howner, hs]
  rw [enclosing, enclosing, hk, hunfold]
  congr 1
  have hle : b ≤ k := by omega
  exact h.ancestors_eq (Nat.lt_of_lt_of_le hlt hle) (Nat.lt_succ_of_lt (Nat.lt_of_lt_of_le hlt hle))

/-- A block that exists is the root or owned by a statement of another block. -/
theorem Inv.root_or_child (h : m.Inv) (hb : b < m.blocks.size) :
    b = rootBlock ∨ ∃ (i : Nat) (s : Stmt), m.stmts[i]? = some s ∧ b ∈ s.kind.childBlocks := by
  by_cases hroot : b = rootBlock
  · exact .inl hroot
  · obtain ⟨o, s, -, hs, hmem, -, -⟩ := h.owned (Array.getElem?_eq_getElem hb) hroot
    exact .inr ⟨o, s, hs, hmem⟩

/-- Induction over blocks from the root down, to the blocks of a statement from its own. -/
theorem Inv.climb_induction (h : m.Inv) {P : Nat → Prop} (root : P rootBlock)
    (child : ∀ (i : Nat) (s : Stmt) (b : Nat), m.stmts[i]? = some s → b ∈ s.kind.childBlocks →
      P s.block → P b)
    (hb : b < m.blocks.size) : P b := by
  induction b using Nat.strongRecOn with
  | ind b ih =>
    rcases h.root_or_child hb with rfl | ⟨i, s, hs, hmem⟩
    · exact root
    · exact child i s b hs hmem (ih _ (h.parent_lt (h.parent?_child hs hmem)) (h.block_lt hs))

theorem Inv.mem_enclosing (h : m.Inv) (hb : b < m.blocks.size) {i : Nat}
    (hi : i ∈ m.enclosing b) : ∃ s, m.stmts[i]? = some s := by
  revert hi
  refine h.climb_induction (P := fun b => i ∈ m.enclosing b → ∃ s, m.stmts[i]? = some s) ?_
    (fun j s b hs hmem ih hi => ?_) hb
  · rw [h.enclosing_root]
    simp
  rw [h.enclosing_child hs hmem] at hi
  rcases List.mem_cons.1 hi with rfl | hi
  · exact ⟨s, hs⟩
  · exact ih hi

/-! ## Appending changes nothing around the blocks there are -/

section Extend

variable (h : m.Inv) (h' : (m.extend n c kind).Inv)
include h h'

/-- Appending changes nothing around a block. -/
theorem Inv.enclosing_extend (hb : b < m.blocks.size) :
    (m.extend n c kind).enclosing b = m.enclosing b := by
  refine h.climb_induction (P := fun b => (m.extend n c kind).enclosing b = m.enclosing b) ?_
    (fun i s b hs hmem ih => ?_) hb
  · rw [h.enclosing_root, h'.enclosing_root]
  · rw [h.enclosing_child hs hmem, h'.enclosing_child (extend_stmts_old hs) hmem, ih]

theorem Inv.loopAround_extend (hb : b < m.blocks.size) :
    (m.extend n c kind).loopAround b = m.loopAround b := by
  have hkinds : (m.enclosing b).filterMap (m.extend n c kind).kind? =
      (m.enclosing b).filterMap m.kind? := by
    refine List.filterMap_congr fun i hi => ?_
    obtain ⟨s, hs⟩ := h.mem_enclosing hb hi
    rw [kind?, kind?, hs, extend_stmts_old hs]
  rw [loopAround, loopAround, h.enclosing_extend h' hb, hkinds]

omit h h' in
theorem Plays.extend {i : Nat} {role : Role} (hplays : m.Plays i role) :
    (m.extend n c kind).Plays i role := by
  obtain ⟨k, hk, hrole⟩ := hplays
  obtain ⟨s, hs, rfl⟩ := Option.map_eq_some_iff.1 hk
  exact ⟨s.kind, by rw [kind?, extend_stmts_old hs, Option.map_some], hrole⟩

theorem Admits.extend (hb : b < m.blocks.size) {k : Kind} (ha : m.Admits b k) :
    (m.extend n c kind).Admits b k := by
  cases k with
  | loopIndex loop => exact ⟨ha.1.extend, by rw [h.enclosing_extend h' hb]; exact ha.2⟩
  | exitLoop | nextIteration =>
    rw [Admits, h.loopAround_extend h' hb]
    exact ha
  | localLoad | localStore | globalLoad | globalStore | temporaryLoad | temporaryStore | atomic
  | atomicLoad | atomicStore => exact Plays.extend ha
  | _ => exact ha

end Extend

end Module

/-! ## Along a run -/

namespace Builder

/-- Every statement still satisfies what it had to satisfy when it was made. -/
def Admitted (b : Builder) : Prop :=
  ∀ (i : Nat) (s : Stmt), b.module.stmts[i]? = some s → b.module.Admits s.block s.kind

/-- Every move keeps what was asked for. -/
theorem Admitted.move {b b' : Builder} (hinv : b.Inv) (h : b.Admitted) (hmove : b.Move b') :
    b'.Admitted := by
  have hinv' := hinv.move hmove
  cases hmove with
  | append n kind happ =>
    intro i s hs
    rcases Module.extend_stmts_cases hs with hs | ⟨rfl, rfl⟩
    · exact (h i s hs).extend hinv.module hinv'.module (hinv.module.block_lt hs)
    · exact happ.admits.extend hinv.module hinv'.module hinv.current_lt
  | enter => exact h
  | leave => exact h

end Builder

namespace Session

variable {actions : List Action} {s : Session} {m : Module}

/-- Every run keeps what was asked for. -/
theorem admits_of_run (h : Session.run {} actions = .ok s) : s.builder.Admitted := by
  refine (run_induction (P := fun b => b.Inv ∧ b.Admitted) ?_ h ?_).2
  · rintro b b' ⟨hinv, hadm⟩ hmove
    exact ⟨hinv.move hmove, hadm.move hinv hmove⟩
  · exact ⟨⟨Module.inv_empty, trivial⟩, fun i s hs => by simp at hs⟩

theorem module_of_finish (h : s.builder.finish = .ok m) : m = s.builder.module := by
  unfold Builder.finish at h
  split at h
  · exact (Except.ok.inj h).symm
  · cases h

/-- Finished modules keep the invariant of the session, and their statements stay admitted. -/
theorem inv_of_finish (hrun : Session.run {} actions = .ok s) (h : s.builder.finish = .ok m) :
    m.Inv ∧ ∀ (i : Nat) (t : Stmt), m.stmts[i]? = some t → m.Admits t.block t.kind := by
  obtain rfl := module_of_finish h
  exact ⟨(inv_of_run hrun).module, admits_of_run hrun⟩

end Session

end WgslKernel
