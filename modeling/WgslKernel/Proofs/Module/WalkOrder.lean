import WgslKernel.Listing
import WgslKernel.Proofs.Module.Nesting

/-!
# Definition order and walk order

An operand is always made before its reader; is it also walked before?  Exactly one statement of the
operand's block is the reader or has it nested in it, and the operand must not be behind that one.
It is only if a block was opened after more statements had been put beside its owner.
-/

namespace WgslKernel

open List

/-! ## The order of a list -/

section Lists

variable {α β : Type} {l : List α} {x y : α}

/-- Members of an ascending list stand in it in their order. -/
theorem pair_sublist_of_lt {l : List Nat} (hl : l.Pairwise (· < ·)) {x y : Nat} (hx : x ∈ l)
    (hy : y ∈ l) (hlt : x < y) : [x, y].Sublist l := by
  induction l with
  | nil => cases hx
  | cons z l ih =>
    obtain ⟨hz, hl⟩ := pairwise_cons.1 hl
    rcases mem_cons.1 hx with rfl | hx
    · have hy : y ∈ l := (mem_cons.1 hy).resolve_left (Nat.ne_of_gt hlt)
      exact (singleton_sublist.2 hy).cons_cons x
    · have hzx : z < x := hz x hx
      have hy : y ∈ l := (mem_cons.1 hy).resolve_left (Nat.ne_of_gt (Nat.lt_trans hzx hlt))
      exact (ih hl hx hy).cons z

theorem le_of_getLast? {l : List Nat} (hl : l.Pairwise (· < ·)) {x y : Nat}
    (hy : l.getLast? = some y) (hx : x ∈ l) : x ≤ y := by
  obtain ⟨init, rfl⟩ := List.getLast?_eq_some_iff.1 hy
  rcases mem_append.1 hx with hx | hx
  · exact Nat.le_of_lt ((pairwise_append.1 hl).2.2 x hx y mem_cons_self)
  · exact Nat.le_of_eq (mem_singleton.1 hx)

theorem pair_sublist_flatMap {f : α → List β} (h : [x, y].Sublist l) {p q : β} (hp : p ∈ f x)
    (hq : q ∈ f y) : [p, q].Sublist (l.flatMap f) := by
  have hpair : [p, q].Sublist ([x, y].flatMap f) := by
    simpa using (singleton_sublist.2 hp).append (singleton_sublist.2 hq)
  exact hpair.trans (h.flatMap f)

/-- Without repetitions a list has its members in one order only. -/
theorem not_pair_sublist_of_nodup (hl : l.Nodup) (h : [x, y].Sublist l) : ¬ [y, x].Sublist l := by
  induction l with
  | nil => cases h
  | cons z l ih =>
    obtain ⟨hz, hl⟩ := nodup_cons.1 hl
    intro h'
    cases h with
    | cons _ h =>
      cases h' with
      | cons _ h' => exact ih hl h h'
      | cons_cons _ h' => exact hz (h.subset (by simp))
    | cons_cons _ h =>
      cases h' with
      | cons _ h' => exact hz (h'.subset (by simp))
      | cons_cons _ h' => exact hz (h.subset (by simp))

end Lists

/-! ## The walk of a module -/

namespace Listing

/-- The statement whose header a line is. -/
def Line.stmt? : Line → Option StmtId
  | .header _ s => some s.id
  | _ => none

/-- The headers of a listing are in walk order. -/
theorem filterMap_linesOf {o : Outline} (h : o.Owned) (depth : Nat) :
    (linesOf depth o).filterMap Line.stmt? = o.ids := by
  induction o generalizing depth with
  | nil => rfl
  | cons s first second rest ihFirst ihSecond ihRest =>
    obtain ⟨hfirst, hsecond, hf, hs, hr⟩ := h
    have hheader (d : Nat) : Line.stmt? (.header d s) = some s.id := rfl
    have hclose (d : Nat) : Line.stmt? (.close d) = none := rfl
    have helse (d : Nat) : Line.stmt? (.otherwise d) = none := rfl
    cases hkind : s.kind with
    | branch cond a b =>
      -- The line between the two blocks is missing when there is nothing behind it.
      have hboth : (if second.isEmpty then [] else .otherwise depth :: linesOf (depth + 1) second
          ).filterMap Line.stmt? = second.ids := by
        cases hempty : second.isEmpty with
        | true =>
          cases second with
          | nil => rfl
          | cons => cases hempty
        | false => simp [helse, ihSecond hs]
      simp [linesOf, hkind, hheader, hclose, ihFirst hf, ihRest hr, hboth]
    | whileTrue | rangeFor | vertexFor | fragmentFor =>
      simp [linesOf, hkind, Kind.childBlocks, hheader, hclose, ihFirst hf, ihRest hr,
        hsecond (by simp [hkind, Kind.childBlocks])]
    | _ =>
      simp [linesOf, hkind, Kind.childBlocks, hheader, ihRest hr,
        hfirst (by simp [hkind, Kind.childBlocks]), hsecond (by simp [hkind, Kind.childBlocks])]

end Listing

namespace Module

variable {m : Module} {i x y b : Nat} {s t u : Stmt}

/-- The numbers of all statements in walk order, an owner before its blocks. -/
def walk (m : Module) : List StmtId := (m.outline rootBlock).ids

/-- The headers of a listing come in walk order. -/
theorem filterMap_lines (m : Module) :
    (Listing.ofModule m).lines.filterMap Listing.Line.stmt? = m.walk :=
  Listing.filterMap_linesOf (m.owned_outline rootBlock) 0

/-- A generator visits the statements of an offload in walk order. -/
theorem Inv.offload_sublist_walk (h : m.Inv) {o : Offload} (ho : o ∈ m.groups) :
    (m.outlineOf m.outline o.stmts).ids.Sublist m.walk := by
  rw [walk, h.outline_ids, outlineOf_ids]
  exact (stmts_sublist_of_mem_groups ho).flatMap m.subtree

/-- Nothing is walked twice. -/
theorem Inv.nodup_walk (h : m.Inv) : m.walk.Nodup := by
  have hnodup : (m.blockStmts rootBlock).Nodup :=
    (h.wellFormed.ascending rootBlock).imp fun hlt => Nat.ne_of_lt hlt
  rw [walk, h.outline_eq]
  exact (h.placed rootBlock hnodup (fun _ hi => hi) (.start _ _)).nodup

/-- **Every statement is walked once.** -/
theorem Inv.walk_perm (h : m.Inv) : m.walk.Perm (List.range m.stmts.size) := by
  rw [perm_ext_iff_of_nodup h.nodup_walk nodup_range]
  intro i
  rw [walk, h.mem_outline_ids_iff, mem_range]
  constructor
  · rintro ⟨t, ht, -⟩
    exact (Array.getElem?_eq_some_iff.1 ht).1
  · intro hi
    have ht : m.stmts[i]? = some m.stmts[i] := Array.getElem?_eq_getElem hi
    exact ⟨_, ht, h.encloses_root (h.block_lt ht)⟩

/-- The walk of a block is part of the whole walk. -/
theorem Inv.outline_sublist_walk (h : m.Inv) (hb : b < m.blocks.size) :
    (m.outline b).ids.Sublist m.walk :=
  h.climb_induction (P := fun b => (m.outline b).ids.Sublist m.walk) (List.Sublist.refl _)
    (fun _ _ _ hs hmem ih =>
      ((h.outline_sublist_subtree hs hmem).trans (h.subtree_sublist_outline hs)).trans ih) hb

/-! ## Which comes first -/

/-- What stands for statement `i` in block `b`: the one there that is `i` or has it nested in it. -/
def holder? (m : Module) (b : BlockId) (i : StmtId) : Option StmtId :=
  m.stmts[i]?.bind fun s => (i :: m.enclosing s.block).find? (· ∈ m.blockStmts b)

theorem holder?_eq_some (hs : m.stmts[i]? = some s) (hy : m.holder? b i = some y) :
    y ∈ i :: m.enclosing s.block ∧ y ∈ m.blockStmts b := by
  rw [holder?, hs, Option.bind_some] at hy
  exact ⟨mem_of_find?_eq_some hy, by simpa using List.find?_some hy⟩

/-- Something stands for every statement in the blocks around it. -/
theorem Inv.exists_holder (h : m.Inv) (hs : m.stmts[i]? = some s) (henc : m.Encloses b s.block) :
    ∃ y, m.holder? b i = some y := by
  have hex : ∃ y ∈ i :: m.enclosing s.block, y ∈ m.blockStmts b := by
    rcases henc.eq_or_child with rfl | ⟨d, hd, henc⟩
    · exact ⟨i, mem_cons_self, h.mem_blockStmts_self hs⟩
    · obtain ⟨y, t, ht, htb, hmem⟩ := h.exists_owner hd
      refine ⟨y, mem_cons_of_mem _ ?_, htb ▸ h.mem_blockStmts_self ht⟩
      exact (h.mem_enclosing_iff (h.block_lt hs)).2 ⟨t, d, ht, hmem, henc⟩
  rw [holder?, hs, Option.bind_some, ← Option.isSome_iff_exists, List.find?_isSome]
  simpa using hex

/-- **Which of two statements comes first** is decided in a block, by what stands for `i` there. -/
theorem Inv.before_iff (h : m.Inv) (hs : m.stmts[i]? = some s) (hx : x ∈ m.blockStmts b)
    (hne : x ≠ i) (hy : m.holder? b i = some y) : [x, i].Sublist m.walk ↔ x ≤ y := by
  obtain ⟨hyi, hyb⟩ := holder?_eq_some hs hy
  obtain ⟨u, hu, rfl⟩ := h.of_mem_blockStmts hx
  obtain ⟨t, ht, -⟩ := h.of_mem_blockStmts hyb
  have hiy : i ∈ m.subtree y := (h.mem_subtree_iff hs ht).2 hyi
  have hxx : x ∈ m.subtree x := (h.mem_subtree_iff hu hu).2 mem_cons_self
  have hasc := h.wellFormed.ascending u.block
  have hwalk := h.outline_sublist_walk (h.block_lt hu)
  rw [h.outline_ids] at hwalk
  rcases Nat.lt_trichotomy x y with hlt | rfl | hgt
  · have hxy := pair_sublist_of_lt hasc hx hyb hlt
    exact iff_of_true ((pair_sublist_flatMap hxy hxx hiy).trans hwalk) (Nat.le_of_lt hlt)
  · -- The statement is nested in its operand, whose walk begins with the operand.
    refine iff_of_true ?_ (Nat.le_refl x)
    have hsub := (h.subtree_sublist_outline hu).trans (h.outline_sublist_walk (h.block_lt hu))
    rw [h.subtree_eq hu] at hiy hsub
    have hi := (mem_cons.1 hiy).resolve_left hne.symm
    exact ((singleton_sublist.2 hi).cons_cons x).trans hsub
  · refine iff_of_false ?_ (Nat.not_le.2 hgt)
    have hyx := pair_sublist_of_lt hasc hyb hx hgt
    exact not_pair_sublist_of_nodup h.nodup_walk ((pair_sublist_flatMap hyx hiy hxx).trans hwalk)

end Module

/-! ## Blocks opened in time -/

theorem Opening.mem_childBlocks {opening : Opening} {kind : Kind} {b : BlockId}
    (h : opening.block? kind = some b) : b ∈ kind.childBlocks := by
  unfold block? at h
  split at h <;> grind [Kind.childBlocks]

namespace Module

variable {m : Module} {n c i b : Nat} {kind : Kind}

/-- No operand is behind what stands for its user in the operand's block. -/
def Ordered (m : Module) : Prop :=
  ∀ (i : Nat) (s : Stmt), m.stmts[i]? = some s → ∀ x ∈ s.kind.operands,
    ∀ b, x ∈ m.blockStmts b → ∀ y ∈ i :: m.enclosing s.block, y ∈ m.blockStmts b → x ≤ y

/-- Every statement around block `c` is the last one of its own block. -/
def OpenLast (m : Module) (c : BlockId) : Prop :=
  ∀ y ∈ m.enclosing c, ∀ s, m.stmts[y]? = some s → (m.blockStmts s.block).getLast? = some y

theorem mem_blockStmts_extend_cases (hc : c < m.blocks.size)
    (hi : i ∈ (m.extend n c kind).blockStmts b) :
    i ∈ m.blockStmts b ∨ b = c ∧ i = m.nextId := by
  obtain ⟨blk, hblk, hi⟩ := mem_blockStmts.1 hi
  rcases extend_block_cases hc hblk with ⟨old, hold, rfl⟩ | ⟨-, -, rfl⟩
  · split at hi
    · rcases mem_append.1 hi with hi | hi
      · exact .inl (mem_blockStmts.2 ⟨old, hold, hi⟩)
      · exact .inr ⟨‹_›, mem_singleton.1 hi⟩
    · exact .inl (mem_blockStmts.2 ⟨old, hold, hi⟩)
  · cases hi

theorem blockStmts_extend_of_ne (hb : b < m.blocks.size) (hne : b ≠ c) :
    (m.extend n c kind).blockStmts b = m.blockStmts b := by
  have hblk : m.blocks[b]? = some m.blocks[b] := Array.getElem?_eq_getElem hb
  rw [blockStmts, blockStmts, extend_block_old hblk, if_neg hne, hblk]

end Module

namespace Builder

variable {b : Builder} {n i : Nat} {kind : Kind}

/-- What holds of a builder as long as blocks are opened in time. -/
structure InTime (b : Builder) : Prop where
  inv : b.Inv
  openLast : b.module.OpenLast b.current
  ordered : b.module.Ordered

theorem InTime.openLast_append (h : b.InTime) (happ : b.Appends n kind) :
    (b.module.extend n b.current kind).OpenLast b.current := by
  intro y hy s hs
  have hinv' := (h.inv.move (.append n kind happ)).module
  rw [h.inv.module.enclosing_extend hinv' h.inv.current_lt] at hy
  obtain ⟨t, c, ht, hc, henc⟩ := (h.inv.module.mem_enclosing_iff h.inv.current_lt).1 hy
  rw [Module.extend_stmts_old ht] at hs
  cases hs
  -- The block of an owner is around the current one, so it is not the one appended to.
  have hlt : s.block < b.current := Nat.lt_of_lt_of_le
    (h.inv.module.parent_lt (h.inv.module.parent?_child ht hc)) (h.inv.module.le_of_encloses henc)
  rw [Module.blockStmts_extend_of_ne (h.inv.module.block_lt ht) (Nat.ne_of_lt hlt)]
  exact h.openLast y hy s ht

theorem InTime.ordered_append (h : b.InTime) (happ : b.Appends n kind) :
    (b.module.extend n b.current kind).Ordered := by
  intro i s hs x hx c hxc y hy hyc
  have hinv' := (h.inv.move (.append n kind happ)).module
  have hxi : x < i := (hinv'.operands hs x hx).1
  rcases Module.extend_stmts_cases hs with hs | ⟨rfl, rfl⟩
  · have hi := Module.stmts_lt_nextId hs
    rw [h.inv.module.enclosing_extend hinv' (h.inv.module.block_lt hs)] at hy
    have hyi : y < b.module.nextId := by
      rcases mem_cons.1 hy with rfl | hy
      · exact hi
      · obtain ⟨t, ht⟩ := h.inv.module.mem_enclosing (h.inv.module.block_lt hs) hy
        exact Module.stmts_lt_nextId ht
    have hxc := (Module.mem_blockStmts_extend_cases h.inv.current_lt hxc).resolve_right
      fun hnew => absurd hnew.2 (Nat.ne_of_lt (Nat.lt_trans hxi hi))
    have hyc := (Module.mem_blockStmts_extend_cases h.inv.current_lt hyc).resolve_right
      fun hnew => absurd hnew.2 (Nat.ne_of_lt hyi)
    exact h.ordered i s hs x hx c hxc y hy hyc
  · rw [h.inv.module.enclosing_extend hinv' h.inv.current_lt] at hy
    rcases mem_cons.1 hy with rfl | hy
    · exact Nat.le_of_lt hxi
    · -- The owner of an open block is the last statement beside the operand.
      obtain ⟨t, ht⟩ := h.inv.module.mem_enclosing h.inv.current_lt hy
      have hxc := (Module.mem_blockStmts_extend_cases h.inv.current_lt hxc).resolve_right
        fun hnew => absurd hnew.2 (Nat.ne_of_lt hxi)
      have hyc := (Module.mem_blockStmts_extend_cases h.inv.current_lt hyc).resolve_right
        fun hnew => absurd hnew.2 (Nat.ne_of_lt (Module.stmts_lt_nextId ht))
      obtain ⟨u, hu, rfl⟩ := h.inv.module.of_mem_blockStmts hyc
      exact le_of_getLast? (h.inv.module.wellFormed.ascending _) (h.openLast y hy u hu) hxc

theorem InTime.append (h : b.InTime) (happ : b.Appends n kind) :
    InTime { b with module := b.module.extend n b.current kind } :=
  ⟨h.inv.move (.append n kind happ), h.openLast_append happ, h.ordered_append happ⟩

theorem InTime.enter (h : b.InTime) {s : Stmt} {block : BlockId}
    (hs : b.module.stmts[i]? = some s) (hblock : block ∈ s.kind.childBlocks)
    (hcur : b.module.parent? block = some b.current)
    (hlast : (b.module.blockStmts b.current).getLast? = some i) :
    InTime { b with opened := b.opened ++ [block] } := by
  refine ⟨h.inv.move (.enter block hcur), ?_, h.ordered⟩
  have hsb : s.block = b.current :=
    Option.some.inj ((h.inv.module.parent?_child hs hblock).symm.trans hcur)
  have hcurrent : current { b with opened := b.opened ++ [block] } = block := by simp [current]
  intro y hy t ht
  rw [hcurrent, h.inv.module.enclosing_child hs hblock, hsb] at hy
  rcases mem_cons.1 hy with rfl | hy
  · rw [hs] at ht
    cases ht
    rw [hsb]
    exact hlast
  · exact h.openLast y hy t ht

theorem InTime.leave (h : b.InTime) (hne : b.opened ≠ []) :
    InTime { b with opened := b.opened.dropLast } := by
  refine ⟨h.inv.move (.leave hne), ?_, h.ordered⟩
  intro y hy t ht
  refine h.openLast y ?_ t ht
  obtain ⟨init, last, hlast⟩ := (eq_nil_or_concat b.opened).resolve_left hne
  rw [concat_eq_append] at hlast
  have hchain := h.inv.chain
  rw [hlast, Module.chain_append] at hchain
  obtain ⟨j, s, hs, hsb, hmem⟩ := h.inv.module.exists_owner hchain.2
  have hcurrent : b.current = last := by simp [current, hlast]
  have houter : current { b with opened := b.opened.dropLast } = s.block := by
    simp [current, hlast, hsb]
  rw [houter] at hy
  rw [hcurrent, h.inv.module.enclosing_child hs hmem]
  exact mem_cons_of_mem _ hy

end Builder

namespace Session

variable {actions : List Action} {s s' : Session} {m : Module}

/-- Whether a step that opens a block finds the owner at the end of the current block. -/
def promptStep (s : Session) : Action → Bool
  | .openGuard _ id => (s.builder.module.blockStmts s.builder.current).getLast? == some id
  | _ => true

/-- Whether every step that opens a block finds the owner at the end of the current block. -/
def prompt (s : Session) : List Action → Bool
  | [] => true
  | a :: actions =>
    s.promptStep a && match s.step a with
      | .ok (t, _) => t.prompt actions
      | .error _ => true

/-- A prompt step stays in time. -/
theorem inTime_step {a : Action} {reply : Reply} (h : s.builder.InTime) (ha : s.promptStep a = true)
    (hstep : s.step a = .ok (s', reply)) : s'.builder.InTime := by
  cases a with
  | create op =>
    obtain ⟨⟨b, id⟩, hb, hstep⟩ := bind_eq_ok.1 hstep
    cases hstep
    obtain ⟨n, kind, happ, -, rfl⟩ := Builder.create_cases hb
    exact h.append happ
  | openGuard opening id =>
    obtain ⟨⟨b, guard⟩, hb, hstep⟩ := bind_eq_ok.1 hstep
    cases hstep
    obtain ⟨t, block, ht, hblock, hparent, rfl, -⟩ := Builder.openGuard_cases hb
    exact h.enter ht (Opening.mem_childBlocks hblock) hparent (by simpa [promptStep] using ha)
  | closeGuard handle =>
    rw [step] at hstep
    split at hstep
    · obtain ⟨b, hb, hstep⟩ := bind_eq_ok.1 hstep
      cases hstep
      obtain ⟨-, hlast, rfl⟩ := Builder.closeGuard_cases hb
      refine h.leave fun hnil => ?_
      rw [hnil] at hlast
      cases hlast
    · cases hstep

/-- **Blocks opened in time keep the order**: no operand ends up behind what stands for its user. -/
theorem ordered_of_prompt (hrun : s.run actions = .ok s') (hprompt : s.prompt actions = true)
    (h : s.builder.InTime) : s'.builder.module.Ordered := by
  induction actions generalizing s with
  | nil =>
    cases hrun
    exact h.ordered
  | cons a actions ih =>
    obtain ⟨⟨t, reply⟩, hstep, hrun⟩ := bind_eq_ok.1 hrun
    rw [prompt, hstep, Bool.and_eq_true] at hprompt
    exact ih hrun hprompt.2 (inTime_step h hprompt.1 hstep)

theorem inTime_empty : ({} : Builder).InTime :=
  ⟨⟨Module.inv_empty, trivial⟩, fun y hy => absurd hy (by simp [Builder.current, Module.inv_empty]),
    fun i s hs => by simp at hs⟩

/-- **When an operand is walked before its user.**  In every finished module a walk, which is the
order of the listing and of the generator, comes to each statement once.  It comes to an operand `x`
before its user `i` exactly if `x` is not behind what stands for `i` in the block of `x`; and it
comes to all operands first if every block was opened while its owner was the last statement. -/
theorem walk_before_iff (hrun : Session.run {} actions = .ok s)
    (hfinish : s.builder.finish = .ok m) :
    m.walk.Perm (List.range m.stmts.size) ∧
    (Listing.ofModule m).lines.filterMap Listing.Line.stmt? = m.walk ∧
    (∀ o ∈ m.groups, (m.outlineOf m.outline o.stmts).ids.Sublist m.walk) ∧
    (∀ (i : Nat) (t : Stmt), m.stmts[i]? = some t → ∀ x ∈ t.kind.operands,
      ∃ (u : Stmt) (y : StmtId), m.stmts[x]? = some u ∧ m.holder? u.block i = some y ∧
        ([x, i].Sublist m.walk ↔ x ≤ y)) ∧
    (Session.prompt {} actions = true → ∀ (i : Nat) (t : Stmt), m.stmts[i]? = some t →
      ∀ x ∈ t.kind.operands, [x, i].Sublist m.walk) := by
  obtain ⟨hinv, -⟩ := inv_of_finish hrun hfinish
  have hbefore : ∀ (i : Nat) (t : Stmt), m.stmts[i]? = some t → ∀ x ∈ t.kind.operands,
      ∃ (u : Stmt) (y : StmtId), m.stmts[x]? = some u ∧ m.holder? u.block i = some y ∧
        ([x, i].Sublist m.walk ↔ x ≤ y) := by
    intro i t ht x hx
    obtain ⟨hlt, u, hu, henc⟩ := hinv.operands ht x hx
    obtain ⟨y, hy⟩ := hinv.exists_holder ht henc
    exact ⟨u, y, hu, hy, hinv.before_iff ht (hinv.mem_blockStmts_self hu) (Nat.ne_of_lt hlt) hy⟩
  refine ⟨hinv.walk_perm, m.filterMap_lines, fun o ho => hinv.offload_sublist_walk ho, hbefore, ?_⟩
  intro hprompt i t ht x hx
  have hordered := ordered_of_prompt hrun hprompt inTime_empty
  rw [← module_of_finish hfinish] at hordered
  obtain ⟨u, y, hu, hy, hiff⟩ := hbefore i t ht x hx
  obtain ⟨hyi, hyb⟩ := Module.holder?_eq_some ht hy
  exact hiff.2 (hordered i t ht x hx _ (hinv.mem_blockStmts_self hu) y hyi hyb)

/-- A branch whose first block is filled only after an argument was loaded beside the branch. -/
def deferred : List Action :=
  [.create (.const (.i32 0)), .create (.branch 0), .create (.argLoad .i32 0),
    .openGuard (.branch true) 1, .create (.unary .neg 2), .closeGuard 0]

/-- **Definition order is not walk order**: the negation is walked before what it reads. -/
theorem walk_not_before_deferred :
    ∃ s m t, Session.run {} deferred = .ok s ∧ s.builder.finish = .ok m ∧
      m.stmts[3]? = some t ∧ 2 ∈ t.kind.operands ∧ m.walk = [0, 1, 3, 2] ∧
      ¬ [2, 3].Sublist m.walk :=
  ⟨_, _, _, rfl, rfl, rfl, by decide, by decide, by decide⟩

/-- A loop with a branch inside, each block opened in time. -/
def paced : List Action :=
  [.create (.argLoad .i32 0), .create .whileTrue, .openGuard .whileTrue 1,
    .create (.branch 0), .openGuard (.branch true) 2, .create (.unary .neg 0), .closeGuard 1,
    .openGuard (.branch false) 2, .create (.unary .abs 0), .create .exitLoop, .closeGuard 2,
    .create (.binary .add 0 0), .closeGuard 0]

/-- In time, operands are walked first. -/
theorem walk_before_iff_paced :
    ∃ s m t, Session.run {} paced = .ok s ∧ s.builder.finish = .ok m ∧
      Session.prompt {} paced = true ∧ m.stmts[4]? = some t ∧ t.kind.operands = [0] ∧
      m.holder? rootBlock 4 = some 1 ∧ [0, 4].Sublist m.walk := by
  have hrun : ∃ s m t, Session.run {} paced = .ok s ∧ s.builder.finish = .ok m ∧
      Session.prompt {} paced = true ∧ m.stmts[4]? = some t ∧ t.kind.operands = [0] ∧
      m.holder? rootBlock 4 = some 1 := ⟨_, _, _, rfl, rfl, rfl, rfl, rfl, rfl⟩
  obtain ⟨s, m, t, hrun, hfinish, hprompt, ht, hops, hholder⟩ := hrun
  exact ⟨s, m, t, hrun, hfinish, hprompt, ht, hops, hholder,
    (walk_before_iff hrun hfinish).2.2.2.2 hprompt 4 t ht 0 (by simp [hops])⟩

end Session

end WgslKernel
