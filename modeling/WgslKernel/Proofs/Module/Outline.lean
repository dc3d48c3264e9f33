import WgslKernel.Proofs.Module.Tree

/-!
# The order in which statements are walked

When a walk meets a statement, which of the ones it has seen are still in scope?  `Outline.Placed`
answers for every position.  Blocks can be opened late and reopened, so a statement may well read
one that is walked only later; but a statement walked before is read only if it is visible.
-/

namespace WgslKernel

open List

namespace Outline

/-- The numbers of the statements of an outline, in walk order. -/
def ids (o : Outline) : List StmtId := o.stmts.map Stmt.id

@[simp] theorem ids_nil : Outline.nil.ids = [] := rfl

@[simp] theorem ids_cons (s : Stmt) (first second rest : Outline) :
    (Outline.cons s first second rest).ids =
      s.id :: (first.ids ++ (second.ids ++ rest.ids)) := by
  simp [ids, stmts]

theorem forall_stmts_cons {T : Stmt → Prop} {s : Stmt} {first second rest : Outline} :
    (∀ t ∈ (cons s first second rest).stmts, T t) ↔ T s ∧ (∀ t ∈ first.stmts, T t) ∧
      (∀ t ∈ second.stmts, T t) ∧ ∀ t ∈ rest.stmts, T t := by
  simp [stmts, or_imp, forall_and]

/-- Statements have outlines for the blocks they own, and no others. -/
def Owned : Outline → Prop
  | nil => True
  | cons s first second rest =>
    (s.kind.childBlocks.length = 0 → first = nil) ∧ (s.kind.childBlocks.length ≤ 1 → second = nil) ∧
      first.Owned ∧ second.Owned ∧ rest.Owned

/-- An outline at its place in a walk: `walked` are the statements visited before it, `visible`
those of them whose scope reaches here, and `around` are the statements it is nested in, innermost
first. -/
inductive Placed (m : Module) : List StmtId → List StmtId → List StmtId → Outline → Prop where
  | nil {walked visible around : List StmtId} : Placed m walked visible around .nil
  | cons {walked visible around : List StmtId} {s : Stmt} {first second rest : Outline}
    (found : m.stmts[s.id]? = some s)
    (fresh : s.id ∉ walked)
    (scope : ∀ x ∈ s.kind.operands, x ∈ walked → x ∈ visible)
    (inside : m.enclosing s.block = around)
    (hfirst : Placed m (s.id :: walked) (s.id :: visible) (s.id :: around) first)
    (hsecond : Placed m (first.ids ++ s.id :: walked) (s.id :: visible) (s.id :: around) second)
    (hrest : Placed m (second.ids ++ (first.ids ++ s.id :: walked)) (s.id :: visible) around rest) :
    Placed m walked visible around (.cons s first second rest)

/-- Statements of a walk are there. -/
theorem Placed.found_of_mem {m : Module} {walked visible around : List StmtId} {o : Outline}
    (h : o.Placed m walked visible around) {s : Stmt} (hs : s ∈ o.stmts) :
    m.stmts[s.id]? = some s := by
  induction h with
  | nil => simp [stmts] at hs
  | cons found _ _ _ _ _ _ ihFirst ihSecond ihRest =>
    simp only [stmts, mem_cons, mem_append] at hs
    rcases hs with rfl | hs | hs | hs
    · exact found
    · exact ihFirst hs
    · exact ihSecond hs
    · exact ihRest hs

/-- Nothing in a placed outline was walked before. -/
theorem Placed.notMem {m : Module} {walked visible around : List StmtId} {o : Outline}
    (h : o.Placed m walked visible around) {x : StmtId} (hx : x ∈ o.ids) : x ∉ walked := by
  induction h with
  | nil => simp at hx
  | cons _ fresh _ _ _ _ _ ihFirst ihSecond ihRest =>
    simp only [ids_cons, mem_cons, mem_append] at hx
    rcases hx with rfl | hx | hx | hx
    · exact fresh
    · exact fun hmem => ihFirst hx (by simp [hmem])
    · exact fun hmem => ihSecond hx (by simp [hmem])
    · exact fun hmem => ihRest hx (by simp [hmem])

theorem nodup_ids_cons {s : Stmt} {first second rest : Outline} :
    (Outline.cons s first second rest).ids.Nodup ↔
      (s.id ∉ first.ids ∧ s.id ∉ second.ids ∧ s.id ∉ rest.ids) ∧
      first.ids.Nodup ∧ second.ids.Nodup ∧ rest.ids.Nodup ∧
      (∀ x ∈ first.ids, x ∉ second.ids ∧ x ∉ rest.ids) ∧ ∀ x ∈ second.ids, x ∉ rest.ids := by
  simp only [ids_cons, nodup_cons, nodup_append', mem_append, disjoint_left, not_or]
  tauto

/-- No statement occurs twice in a placed outline. -/
theorem Placed.nodup {m : Module} {walked visible around : List StmtId} {o : Outline}
    (h : o.Placed m walked visible around) : o.ids.Nodup := by
  induction h with
  | nil => exact nodup_nil
  | cons _ _ _ _ hfirst hsecond hrest ihFirst ihSecond ihRest =>
    rw [nodup_ids_cons]
    refine ⟨⟨?_, ?_, ?_⟩, ihFirst, ihSecond, ihRest, fun x hx => ⟨?_, ?_⟩, fun x hx => ?_⟩
    · exact fun hmem => hfirst.notMem hmem (by simp)
    · exact fun hmem => hsecond.notMem hmem (by simp)
    · exact fun hmem => hrest.notMem hmem (by simp)
    · exact fun hmem => hsecond.notMem hmem (by simp [hx])
    · exact fun hmem => hrest.notMem hmem (by simp [hx])
    · exact fun hmem => hrest.notMem hmem (by simp [hx])

end Outline

namespace Module

variable {m : Module} {b c : Nat}

/-! ## Outlines without a bound -/

/-- The outline of a statement's `k`-th block, given the outlines of blocks. -/
def below (under : BlockId → Outline) (s : Stmt) (k : Nat) : Outline :=
  s.kind.childBlocks[k]?.elim .nil under

theorem outlineOf_cons {under : BlockId → Outline} {i : Nat} {s : Stmt} {ids : List StmtId}
    (hs : m.stmts[i]? = some s) :
    m.outlineOf under (i :: ids) =
      .cons s (below under s 0) (below under s 1) (m.outlineOf under ids) := by
  simp only [outlineOf, hs, below]
  split <;> rename_i hkids <;> simp [hkids]

/-- The outline of one statement that owns one block. -/
theorem outlineOf_standalone {under : BlockId → Outline} {i : Nat} {b : BlockId} {s : Stmt}
    (hs : m.stmts[i]? = some s) (hb : s.kind.childBlocks = [b]) :
    m.outlineOf under [i] = .cons s (under b) .nil .nil := by
  rw [outlineOf_cons hs]
  simp [below, hb, outlineOf]

theorem below_cases (under : BlockId → Outline) (s : Stmt) (k : Nat) :
    below under s k = .nil ∨
      ∃ c, s.kind.childBlocks[k]? = some c ∧ below under s k = under c := by
  cases hc : s.kind.childBlocks[k]? with
  | none => exact .inl (by simp [below, hc])
  | some c => exact .inr ⟨c, rfl, by simp [below, hc]⟩

theorem outlineOf_congr {f g : BlockId → Outline} {ids : List StmtId}
    (h : ∀ i ∈ ids, ∀ s, m.stmts[i]? = some s → ∀ b ∈ s.kind.childBlocks, f b = g b) :
    m.outlineOf f ids = m.outlineOf g ids := by
  induction ids with
  | nil => rfl
  | cons i ids ih =>
    have htail := ih fun j hj => h j (mem_cons_of_mem _ hj)
    cases hs : m.stmts[i]? with
    | none => simpa [outlineOf, hs] using htail
    | some s =>
      have hbelow (k : Nat) : below f s k = below g s k := by
        cases hc : s.kind.childBlocks[k]? with
        | none => simp [below, hc]
        | some c =>
          simpa [below, hc] using h i mem_cons_self s hs c (mem_of_getElem? hc)
      rw [outlineOf_cons hs, outlineOf_cons hs, htail, hbelow, hbelow]

theorem owned_outlineOf {under : BlockId → Outline} (h : ∀ b, (under b).Owned)
    (ids : List StmtId) : (m.outlineOf under ids).Owned := by
  have hbelow : ∀ s k, (below under s k).Owned := by
    intro s k
    rcases below_cases under s k with hnil | ⟨c, -, heq⟩
    · rw [hnil]
      trivial
    · rw [heq]
      exact h c
  induction ids with
  | nil => trivial
  | cons i ids ih =>
    cases hs : m.stmts[i]? with
    | none => simpa [outlineOf, hs] using ih
    | some s =>
      rw [outlineOf_cons hs]
      refine ⟨fun hlen => ?_, fun hlen => ?_, hbelow s 0, hbelow s 1, ih⟩
      · rw [below, List.getElem?_eq_none (by omega), Option.elim_none]
      · rw [below, List.getElem?_eq_none (by omega), Option.elim_none]

/-- Outlines follow the blocks that are owned. -/
theorem owned_outline (m : Module) (b : BlockId) : (m.outline b).Owned := by
  suffices h : ∀ k b, (m.outlineTo k b).Owned from h _ _
  intro k
  induction k with
  | zero => exact fun _ => trivial
  | succ k ih => exact fun b => owned_outlineOf ih (m.blockStmts b)

/-- An outline holds statements of the module. -/
theorem found_of_mem_outlineOf {under : BlockId → Outline} {ids : List StmtId} {s : Stmt}
    (hunder : ∀ b, ∀ t ∈ (under b).stmts, ∃ i : Nat, m.stmts[i]? = some t)
    (hs : s ∈ (m.outlineOf under ids).stmts) : ∃ i : Nat, m.stmts[i]? = some s := by
  have hbelow {t : Stmt} {k : Nat} (hs : s ∈ (below under t k).stmts) :
      ∃ i : Nat, m.stmts[i]? = some s := by
    rcases below_cases under t k with hnil | ⟨b, -, heq⟩
    · rw [hnil] at hs
      cases hs
    · rw [heq] at hs
      exact hunder b s hs
  induction ids with
  | nil => cases hs
  | cons i ids ih =>
    cases hi : m.stmts[i]? with
    | none => exact ih (by simpa [outlineOf, hi] using hs)
    | some t =>
      rw [outlineOf_cons hi] at hs
      simp only [Outline.stmts, mem_cons, mem_append] at hs
      rcases hs with rfl | hs | hs | hs
      · exact ⟨i, hi⟩
      · exact hbelow hs
      · exact hbelow hs
      · exact ih hs

theorem found_of_mem_outline {b : BlockId} {s : Stmt} (hs : s ∈ (m.outline b).stmts) :
    ∃ i : Nat, m.stmts[i]? = some s := by
  suffices h : ∀ k b, ∀ t ∈ (m.outlineTo k b).stmts, ∃ i : Nat, m.stmts[i]? = some t from h _ _ _ hs
  intro k
  induction k with
  | zero =>
    intro b t ht
    cases ht
  | succ k ih => exact fun b t ht => found_of_mem_outlineOf ih ht

theorem blockStmts_eq_nil (hb : m.blocks.size ≤ b) : m.blockStmts b = [] := by
  simp [blockStmts, Array.getElem?_eq_none hb]

/-- A statement listed in a block names that block. -/
theorem Inv.of_mem_blockStmts (h : m.Inv) {i : Nat} (hi : i ∈ m.blockStmts b) :
    ∃ s, m.stmts[i]? = some s ∧ s.block = b := by
  obtain ⟨blk, hblk, hi⟩ := mem_blockStmts.1 hi
  exact (h.mem_stmts hblk).1 hi

/-- The depth to which an outline is taken does not matter once it reaches the last block. -/
theorem Inv.outlineTo_eq (h : m.Inv) {k l : Nat} (hk : m.blocks.size ≤ b + k)
    (hl : m.blocks.size ≤ b + l) : m.outlineTo k b = m.outlineTo l b := by
  induction k generalizing b l with
  | zero =>
    cases l with
    | zero => rfl
    | succ l => rw [outlineTo, outlineTo, blockStmts_eq_nil (b := b) hk, outlineOf]
  | succ k ih =>
    cases l with
    | zero => rw [outlineTo, outlineTo, blockStmts_eq_nil (b := b) hl, outlineOf]
    | succ l =>
      refine outlineOf_congr fun i hi s hs c hc => ?_
      obtain ⟨t, ht, htb⟩ := h.of_mem_blockStmts hi
      rw [hs] at ht
      cases ht
      have hlt : b < c := by
        rw [← htb]
        exact h.parent_lt (h.parent?_child hs hc)
      exact ih (by omega) (by omega)

/-- The outline of a block is made of the outlines of the blocks below it. -/
theorem Inv.outline_eq (h : m.Inv) (b : Nat) :
    m.outline b = m.outlineOf m.outline (m.blockStmts b) := by
  obtain ⟨k, hk⟩ := Nat.exists_eq_succ_of_ne_zero (Nat.ne_of_gt h.root_lt)
  have hunfold : m.outline b = m.outlineOf (m.outlineTo k) (m.blockStmts b) := by
    rw [outline, hk, outlineTo]
  rw [hunfold]
  refine outlineOf_congr fun i hi s hs (c : Nat) hc => ?_
  have hpos : 0 < c := Nat.zero_lt_of_lt (h.parent_lt (h.parent?_child hs hc))
  rw [outline]
  exact h.outlineTo_eq (by omega) (by omega)

/-! ## What lies under a statement -/

theorem mem_below_ids {under : BlockId → Outline} {s : Stmt} {k x : Nat}
    (hx : x ∈ (below under s k).ids) : ∃ c ∈ s.kind.childBlocks, x ∈ (under c).ids := by
  rcases below_cases under s k with hnil | ⟨c, hc, heq⟩
  · simp [hnil] at hx
  · exact ⟨c, mem_of_getElem? hc, heq ▸ hx⟩

theorem Inv.mem_outlineOf_ids (h : m.Inv) {under : BlockId → Outline} {ids : List StmtId} {x : Nat}
    (hx : x ∈ (m.outlineOf under ids).ids) :
    ∃ i ∈ ids, ∃ s, m.stmts[i]? = some s ∧
      (x = i ∨ ∃ c ∈ s.kind.childBlocks, x ∈ (under c).ids) := by
  induction ids with
  | nil => simp [outlineOf] at hx
  | cons i ids ih =>
    have htail (hx : x ∈ (m.outlineOf under ids).ids) : ∃ j ∈ i :: ids, ∃ s,
        m.stmts[j]? = some s ∧ (x = j ∨ ∃ c ∈ s.kind.childBlocks, x ∈ (under c).ids) := by
      obtain ⟨j, hj, hrest⟩ := ih hx
      exact ⟨j, mem_cons_of_mem _ hj, hrest⟩
    cases hs : m.stmts[i]? with
    | none => exact htail (by simpa [outlineOf, hs] using hx)
    | some s =>
      rw [outlineOf_cons hs, Outline.ids_cons, h.id_eq hs] at hx
      simp only [mem_cons, mem_append] at hx
      rcases hx with hx | hx | hx | hx
      · exact ⟨i, mem_cons_self, s, hs, .inl hx⟩
      · exact ⟨i, mem_cons_self, s, hs, .inr (mem_below_ids hx)⟩
      · exact ⟨i, mem_cons_self, s, hs, .inr (mem_below_ids hx)⟩
      · exact htail hx

/-- The outline of a block holds only statements of blocks inside it. -/
theorem Inv.mem_outline_ids (h : m.Inv) (b : Nat) {x : Nat} :
    x ∈ (m.outline b).ids → ∃ t, m.stmts[x]? = some t ∧ m.Encloses b t.block := by
  refine h.block_induction (P := fun b => x ∈ (m.outline b).ids →
    ∃ t, m.stmts[x]? = some t ∧ m.Encloses b t.block) (fun b ih hx => ?_) b
  rw [h.outline_eq] at hx
  obtain ⟨i, hi, s, hs, hx⟩ := h.mem_outlineOf_ids hx
  obtain ⟨t, ht, htb⟩ := h.of_mem_blockStmts hi
  rw [hs] at ht
  cases ht
  rcases hx with rfl | ⟨c, hc, hx⟩
  · exact ⟨s, hs, htb ▸ .refl⟩
  · have hparent : m.parent? c = some b := htb ▸ h.parent?_child hs hc
    obtain ⟨t, ht, henc⟩ := ih c hparent hx
    exact ⟨t, ht, (Encloses.step hparent .refl).trans henc⟩

/-- Statement `x` is `y` or lies in one of its blocks, at any depth. -/
def Under (m : Module) (y x : StmtId) : Prop :=
  x = y ∨ ∃ (s t : Stmt) (c : BlockId), m.stmts[y]? = some s ∧ c ∈ s.kind.childBlocks ∧
    m.stmts[x]? = some t ∧ m.Encloses c t.block

/-- What is under a statement is inside its block. -/
theorem Inv.encloses_of_under (h : m.Inv) {x y : Nat} {s : Stmt} (hs : m.stmts[y]? = some s)
    (hu : m.Under y x) : ∃ t, m.stmts[x]? = some t ∧ m.Encloses s.block t.block := by
  rcases hu with rfl | ⟨s', t, c, hs', hc, ht, henc⟩
  · exact ⟨s, hs, .refl⟩
  · rw [hs] at hs'
    cases hs'
    exact ⟨t, ht, (Encloses.step (h.parent?_child hs hc) .refl).trans henc⟩

/-! ## Outlines are placed -/

/-- What a walk of the statements `ids` of block `b` starts from: walked statements whose block
reaches here are visible, and nothing under `ids` has been walked. -/
structure Ready (m : Module) (b : BlockId) (ids walked visible : List StmtId) : Prop where
  visible : ∀ x ∈ walked, ∀ t, m.stmts[x]? = some t → m.Encloses t.block b → x ∈ visible
  fresh : ∀ i ∈ ids, ∀ x ∈ walked, ¬ m.Under i x

section Ready

variable {i : Nat} {s : Stmt} {ids walked visible more : List StmtId}

/-- A walk can enter the blocks of the statement it has come to, one after another. -/
theorem Ready.child (hready : m.Ready s.block (i :: ids) walked visible) (h : m.Inv)
    (hs : m.stmts[i]? = some s) (hc : c ∈ s.kind.childBlocks)
    (hmore : ∀ x ∈ more, ∃ d ∈ s.kind.childBlocks, d ≠ c ∧ x ∈ (m.outline d).ids) :
    m.Ready c (m.blockStmts c) (more ++ i :: walked) (i :: visible) := by
  have hparent := h.parent?_child hs hc
  have hapart : ∀ x ∈ more, ∀ t, m.stmts[x]? = some t →
      ¬ m.Encloses c t.block ∧ ¬ m.Encloses t.block c := by
    intro x hx t ht
    obtain ⟨d, hd, hne, hx⟩ := hmore x hx
    obtain ⟨t', ht', henc⟩ := h.mem_outline_ids d hx
    rw [ht] at ht'
    cases ht'
    have hdc : ¬ m.Encloses d c := fun hdc =>
      hne (h.eq_of_encloses (h.parent?_child hs hd) hparent hdc)
    have hcd : ¬ m.Encloses c d := fun hcd =>
      hne (h.eq_of_encloses hparent (h.parent?_child hs hd) hcd).symm
    constructor
    · intro hct
      rcases hct.comparable henc with hcd' | hdc'
      · exact hcd hcd'
      · exact hdc hdc'
    · intro htc
      exact hdc (henc.trans htc)
  constructor
  · intro x hx t ht henc
    rcases mem_append.1 hx with hx | hx
    · exact absurd henc (hapart x hx t ht).2
    rcases mem_cons.1 hx with rfl | hx
    · exact mem_cons_self
    rcases henc.eq_or_parent hparent with rfl | henc
    · exact absurd (.inr ⟨s, t, t.block, hs, hc, ht, .refl⟩)
        (hready.fresh i mem_cons_self x hx)
    · exact mem_cons_of_mem _ (hready.visible x hx t ht henc)
  · intro j hj x hx hunder
    obtain ⟨u, hu, hub⟩ := h.of_mem_blockStmts hj
    obtain ⟨t, ht, henc⟩ := h.encloses_of_under hu hunder
    rw [hub] at henc
    rcases mem_append.1 hx with hx | hx
    · exact (hapart x hx t ht).1 henc
    rcases mem_cons.1 hx with rfl | hx
    · rw [hs] at ht
      cases ht
      exact absurd (h.le_of_encloses henc) (Nat.not_le.2 (h.parent_lt hparent))
    · exact hready.fresh i mem_cons_self x hx (.inr ⟨s, t, c, hs, hc, ht, henc⟩)

/-- A walk can go on behind a statement, once it has been through the blocks of that statement. -/
theorem Ready.next (hready : m.Ready s.block (i :: ids) walked visible) (h : m.Inv)
    (hs : m.stmts[i]? = some s) (hi : i ∉ ids) (hids : ∀ j ∈ ids, j ∈ m.blockStmts s.block)
    (hmore : ∀ x ∈ more, ∃ d ∈ s.kind.childBlocks, x ∈ (m.outline d).ids) :
    m.Ready s.block ids (more ++ i :: walked) (i :: visible) := by
  -- A block inside does not reach the block it is in.
  have hout : ∀ {j : Nat} {u : Stmt} {d : Nat}, m.stmts[j]? = some u → u.block = s.block →
      d ∈ u.kind.childBlocks → ¬ m.Encloses d s.block := by
    intro j u d hu hub hd henc
    have hlt := h.parent_lt (h.parent?_child hu hd)
    rw [hub] at hlt
    exact absurd (h.le_of_encloses henc) (Nat.not_le.2 hlt)
  constructor
  · intro x hx t ht henc
    rcases mem_append.1 hx with hx | hx
    · obtain ⟨d, hd, hx⟩ := hmore x hx
      obtain ⟨t', ht', hdt⟩ := h.mem_outline_ids d hx
      rw [ht] at ht'
      cases ht'
      exact absurd (hdt.trans henc) (hout hs rfl hd)
    rcases mem_cons.1 hx with rfl | hx
    · exact mem_cons_self
    · exact mem_cons_of_mem _ (hready.visible x hx t ht henc)
  · intro j hj x hx hunder
    obtain ⟨u, hu, hub⟩ := h.of_mem_blockStmts (hids j hj)
    have hne : i ≠ j := fun hij => hi (hij ▸ hj)
    rcases mem_append.1 hx with hx | hx
    · obtain ⟨d, hd, hx⟩ := hmore x hx
      obtain ⟨t, ht, hdt⟩ := h.mem_outline_ids d hx
      rcases hunder with rfl | ⟨u', t', e, hu', he, ht', het⟩
      · rw [hu] at ht
        cases ht
        exact hout hs rfl hd (hub ▸ hdt)
      · rw [hu] at hu'
        cases hu'
        rw [ht] at ht'
        cases ht'
        have hpd := h.parent?_child hs hd
        have hpe := h.parent?_child hu he
        rw [hub] at hpe
        have hde : d = e := by
          rcases hdt.comparable het with hde | hed
          · exact h.eq_of_encloses hpd hpe hde
          · exact (h.eq_of_encloses hpe hpd hed).symm
        exact hne (h.owner_unique hs hu hd (hde ▸ he))
    rcases mem_cons.1 hx with rfl | hx
    · rcases hunder with heq | ⟨u', t, e, hu', he, ht, het⟩
      · exact hne heq
      · rw [hu] at hu'
        cases hu'
        rw [hs] at ht
        cases ht
        exact hout hu hub he het
    · exact hready.fresh j (mem_cons_of_mem _ hj) x hx hunder

end Ready

/-- **The outlines of a module are placed.**  The induction is over blocks from the inside out and,
within a block, over the statements still to be walked. -/
theorem Inv.placed (h : m.Inv) (b : Nat) : ∀ {ids walked visible : List StmtId}, ids.Nodup →
    (∀ i ∈ ids, i ∈ m.blockStmts b) → m.Ready b ids walked visible →
    (m.outlineOf m.outline ids).Placed m walked visible (m.enclosing b) := by
  refine h.block_induction (P := fun b => ∀ {ids walked visible : List StmtId}, ids.Nodup →
    (∀ i ∈ ids, i ∈ m.blockStmts b) → m.Ready b ids walked visible →
    (m.outlineOf m.outline ids).Placed m walked visible (m.enclosing b)) (fun b ihb => ?_) b
  intro ids
  induction ids with
  | nil => exact fun _ _ _ => .nil
  | cons i ids ih =>
    intro walked visible hnodup hids hready
    obtain ⟨hi, htail⟩ := nodup_cons.1 hnodup
    obtain ⟨s, hs, rfl⟩ := h.of_mem_blockStmts (hids i mem_cons_self)
    obtain rfl := h.id_eq hs
    have hids' : ∀ j ∈ ids, j ∈ m.blockStmts s.block := fun j hj =>
      hids j (mem_cons_of_mem _ hj)
    -- A block of the statement, after some of its other blocks.
    have hchild {c : Nat} (more : List StmtId) (hc : c ∈ s.kind.childBlocks)
        (hmore : ∀ x ∈ more, ∃ d ∈ s.kind.childBlocks, d ≠ c ∧ x ∈ (m.outline d).ids) :
        (m.outline c).Placed m (more ++ s.id :: walked) (s.id :: visible)
          (s.id :: m.enclosing s.block) := by
      rw [h.outline_eq, ← h.enclosing_child hs hc]
      refine ihb c (h.parent?_child hs hc) ?_ (fun j hj => hj) (hready.child h hs hc hmore)
      exact (h.wellFormed.ascending c).imp fun hlt => Nat.ne_of_lt hlt
    rw [outlineOf_cons hs]
    refine .cons hs ?_ ?_ rfl ?_ ?_ ?_
    · exact fun hmem => hready.fresh s.id mem_cons_self s.id hmem (.inl rfl)
    · intro x hx hwalked
      obtain ⟨-, t, ht, henc⟩ := h.operands hs x hx
      exact hready.visible x hwalked t ht henc
    · rcases below_cases m.outline s 0 with hnil | ⟨c, hc, heq⟩
      · rw [hnil]
        exact .nil
      · rw [heq]
        exact hchild [] (mem_of_getElem? hc) (by simp)
    · rcases below_cases m.outline s 1 with hnil | ⟨c, hc, heq⟩
      · rw [hnil]
        exact .nil
      · rw [heq]
        refine hchild _ (mem_of_getElem? hc) fun x hx => ?_
        rcases below_cases m.outline s 0 with hnil | ⟨d, hd, heq⟩
        · simp [hnil] at hx
        · refine ⟨d, mem_of_getElem? hd, ?_, heq ▸ hx⟩
          rintro rfl
          have hsame := (List.getElem?_inj (List.getElem?_eq_some_iff.1 hd).1 (h.children hs).1).1
            (hd.trans hc.symm)
          exact absurd hsame (by decide)
    · rw [← List.append_assoc]
      refine ih htail hids' (hready.next h hs hi hids' fun x hx => ?_)
      rcases mem_append.1 hx with hx | hx
      · exact mem_below_ids hx
      · exact mem_below_ids hx

end Module

end WgslKernel
