import Mathlib.Data.List.Nodup
import WgslKernel.Proofs.Builder.Step

/-!
# Modules are trees of blocks

Nothing in the type of a module says that its numbers fit together.  They do after every run of a
front end.  Operands are checked against the stack of open blocks, not against the tree, so the
invariant says that the stack is a path of the tree (`Module.Chain`).
-/

namespace WgslKernel

open List

namespace Module

variable {m : Module} {n c b p : Nat} {kind : Kind}

/-! ## Blocks around blocks -/

/-- Block `c` is block `b` or one of the blocks around it, up to the root. -/
inductive Encloses (m : Module) (c : BlockId) : BlockId → Prop where
  | refl : Encloses m c c
  | step {b p : BlockId} : m.parent? b = some p → Encloses m c p → Encloses m c b

theorem Encloses.trans {a : BlockId} (hab : m.Encloses a b) (hbc : m.Encloses b c) :
    m.Encloses a c := by
  induction hbc with
  | refl => exact hab
  | step hp _ ih => exact .step hp ih

theorem extend_parent? (h : m.parent? b = some p) : (m.extend n c kind).parent? b = some p := by
  obtain ⟨blk, owner, s, hblk, howner, hs, rfl⟩ := parent?_eq_some.1 h
  refine parent?_eq_some.2 ⟨_, owner, s, extend_block_old hblk, ?_, extend_stmts_old hs, rfl⟩
  split <;> exact howner

theorem Encloses.extend {a : BlockId} (h : m.Encloses a b) : (m.extend n c kind).Encloses a b := by
  induction h with
  | refl => exact .refl
  | step hp _ ih => exact .step (extend_parent? hp) ih

/-! ## Well-formed modules -/

/-- Statements and blocks make up a tree, and statements read downwards and backwards only. -/
structure WellFormed (m : Module) : Prop where
  /-- Statement number `i` has the id `i`. -/
  id_eq : ∀ (i : Nat) (s : Stmt), m.stmts[i]? = some s → s.id = i
  /-- A statement is listed once over all blocks, and that by the block it names. -/
  listed : ∀ (i : Nat) (s : Stmt), m.stmts[i]? = some s →
    i ∈ m.blockStmts s.block ∧ (m.blocks.toList.flatMap Block.stmts).count i = 1
  /-- Blocks list nothing but statements. -/
  defined : ∀ b i, i ∈ m.blockStmts b → ∃ s, m.stmts[i]? = some s
  ascending : ∀ b, (m.blockStmts b).Pairwise (· < ·)
  /-- The root is there, and has no owner. -/
  root : m.blocks[rootBlock]?.map Block.owner = some none
  /-- Any other block has an owner that comes before all the block lists; it is among the children
  of its owner once, and among those of no other statement. -/
  owned : ∀ (b : Nat) (blk : Block), m.blocks[b]? = some blk → b ≠ rootBlock →
    ∃ (o : Nat) (s : Stmt), blk.owner = some o ∧ m.stmts[o]? = some s ∧
      s.kind.childBlocks.count b = 1 ∧
      (∀ (i : Nat) (t : Stmt), m.stmts[i]? = some t → i ≠ o → b ∉ t.kind.childBlocks) ∧
      ∀ i ∈ blk.stmts, o < i
  /-- Operands come earlier, and from the statement's own block or one around it. -/
  operands : ∀ (i : Nat) (s : Stmt), m.stmts[i]? = some s → ∀ x ∈ s.kind.operands,
    x < i ∧ ∃ t : Stmt, m.stmts[x]? = some t ∧ m.Encloses t.block s.block

/-- The form of well-formedness that steps preserve: membership and order are spelled out. -/
structure Inv (m : Module) : Prop where
  id_eq : ∀ {i : Nat} {s : Stmt}, m.stmts[i]? = some s → s.id = i
  block_lt : ∀ {i : Nat} {s : Stmt}, m.stmts[i]? = some s → s.block < m.blocks.size
  mem_stmts : ∀ {b i : Nat} {blk : Block}, m.blocks[b]? = some blk →
    (i ∈ blk.stmts ↔ ∃ s : Stmt, m.stmts[i]? = some s ∧ s.block = b)
  ascending : ∀ {b : Nat} {blk : Block}, m.blocks[b]? = some blk → blk.stmts.Pairwise (· < ·)
  root : ∃ blk, m.blocks[rootBlock]? = some blk ∧ blk.owner = none
  owned : ∀ {b : Nat} {blk : Block}, m.blocks[b]? = some blk → b ≠ rootBlock →
    ∃ (o : Nat) (s : Stmt), blk.owner = some o ∧ m.stmts[o]? = some s ∧ b ∈ s.kind.childBlocks ∧
      s.block < b ∧ ∀ i ∈ blk.stmts, o < i
  children : ∀ {i : Nat} {s : Stmt}, m.stmts[i]? = some s → s.kind.childBlocks.Nodup ∧
    ∀ b ∈ s.kind.childBlocks, ∃ blk, m.blocks[b]? = some blk ∧ blk.owner = some i
  operands : ∀ {i : Nat} {s : Stmt}, m.stmts[i]? = some s → ∀ x ∈ s.kind.operands,
    x < i ∧ ∃ t : Stmt, m.stmts[x]? = some t ∧ m.Encloses t.block s.block

theorem mem_blockStmts {i : Nat} :
    i ∈ m.blockStmts b ↔ ∃ blk, m.blocks[b]? = some blk ∧ i ∈ blk.stmts := by
  rw [blockStmts]
  split
  · rename_i blk h
    simp [h]
  · rename_i h
    simp [h]

theorem stmts_lt_nextId {i : Nat} {s : Stmt} (h : m.stmts[i]? = some s) : i < m.nextId :=
  (Array.getElem?_eq_some_iff.1 h).1

theorem Inv.root_lt (h : m.Inv) : 0 < m.blocks.size := by
  obtain ⟨blk, hblk, -⟩ := h.root
  exact (Array.getElem?_eq_some_iff.1 hblk).1

/-- The block around a block was made before it. -/
theorem Inv.parent_lt (h : m.Inv) (hp : m.parent? b = some p) : p < b := by
  obtain ⟨blk, owner, s, hblk, howner, hs, rfl⟩ := parent?_eq_some.1 hp
  have hb : b ≠ rootBlock := by
    rintro rfl
    obtain ⟨root, hroot, hnone⟩ := h.root
    rw [hroot] at hblk
    cases hblk
    rw [hnone] at howner
    cases howner
  obtain ⟨o, t, ho, ht, -, hlt, -⟩ := h.owned hblk hb
  rw [ho] at howner
  cases howner
  rw [ht] at hs
  cases hs
  exact hlt

/-- A child block belongs to one statement. -/
theorem Inv.owner_unique (h : m.Inv) {i j : Nat} {s t : Stmt} (hs : m.stmts[i]? = some s)
    (ht : m.stmts[j]? = some t) (hbs : b ∈ s.kind.childBlocks) (hbt : b ∈ t.kind.childBlocks) :
    i = j := by
  obtain ⟨blk, hblk, hi⟩ := (h.children hs).2 b hbs
  obtain ⟨blk', hblk', hj⟩ := (h.children ht).2 b hbt
  rw [hblk] at hblk'
  cases hblk'
  rw [hi] at hj
  exact Option.some.inj hj

/-- Over all blocks no statement is listed twice: a list ascends, and a statement names its block.
-/
theorem Inv.nodup_listed (h : m.Inv) : (m.blocks.toList.flatMap Block.stmts).Nodup := by
  rw [nodup_flatMap]
  constructor
  · intro blk hblk
    obtain ⟨b, hb⟩ := mem_iff_getElem?.1 hblk
    rw [Array.getElem?_toList] at hb
    exact (h.ascending hb).imp fun hlt => Nat.ne_of_lt hlt
  · rw [pairwise_iff_getElem]
    intro b c hb hc hbc i hib hic
    obtain ⟨s, hs, hsb⟩ := (h.mem_stmts (b := b) (by simp)).1 hib
    obtain ⟨t, ht, htc⟩ := (h.mem_stmts (b := c) (by simp)).1 hic
    rw [hs] at ht
    cases ht
    exact Nat.ne_of_lt hbc (hsb.symm.trans htc)

/-- The invariant says that the module is a tree. -/
theorem Inv.wellFormed (h : m.Inv) : m.WellFormed where
  id_eq _ _ hs := h.id_eq hs
  listed i s hs := by
    have hlt := h.block_lt hs
    have hmem : i ∈ m.blocks[s.block].stmts :=
      (h.mem_stmts (Array.getElem?_eq_getElem hlt)).2 ⟨s, hs, rfl⟩
    refine ⟨mem_blockStmts.2 ⟨_, Array.getElem?_eq_getElem hlt, hmem⟩, ?_⟩
    refine count_eq_one_of_mem h.nodup_listed (mem_flatMap.2 ⟨_, ?_, hmem⟩)
    exact Array.getElem_mem_toList hlt
  defined b i hi := by
    obtain ⟨blk, hblk, hi⟩ := mem_blockStmts.1 hi
    obtain ⟨s, hs, -⟩ := (h.mem_stmts hblk).1 hi
    exact ⟨s, hs⟩
  ascending b := by
    rw [blockStmts]
    split
    · rename_i blk hblk
      exact h.ascending hblk
    · exact .nil
  root := by
    obtain ⟨blk, hblk, hnone⟩ := h.root
    rw [hblk, Option.map_some, hnone]
  owned b blk hblk hb := by
    obtain ⟨o, s, ho, hs, hmem, -, hlt⟩ := h.owned hblk hb
    refine ⟨o, s, ho, hs, count_eq_one_of_mem (h.children hs).1 hmem, ?_, hlt⟩
    intro i t ht hne hbt
    exact hne (h.owner_unique ht hs hbt hmem)
  operands _ _ hs := h.operands hs

/-! ## Appending keeps a module well formed -/

/-- An empty module is one. -/
theorem inv_empty : ({} : Module).Inv where
  id_eq h := by simp at h
  block_lt h := by simp at h
  mem_stmts {b i blk} h := by
    obtain ⟨hb, rfl⟩ := Array.getElem?_eq_some_iff.1 h
    simp
  ascending {b blk} h := by
    obtain ⟨hb, rfl⟩ := Array.getElem?_eq_some_iff.1 h
    simp
  root := ⟨{}, rfl, rfl⟩
  owned {b blk} h hb := by
    have hlt : b < 1 := (Array.getElem?_eq_some_iff.1 h).1
    exact absurd (Nat.lt_one_iff.1 hlt) hb
  children h := by simp at h
  operands h := by simp at h

section Extend

variable (h : m.Inv) (hc : c < m.blocks.size)
  (hkids : kind.childBlocks = List.range' m.blocks.size n)
include h hc

theorem Inv.extend_mem_stmts {i : Nat} {blk : Block}
    (hblk : (m.extend n c kind).blocks[b]? = some blk) :
    i ∈ blk.stmts ↔ ∃ s, (m.extend n c kind).stmts[i]? = some s ∧ s.block = b := by
  rcases extend_block_cases hc hblk with ⟨old, hold, rfl⟩ | ⟨hle, -, rfl⟩
  · -- The block was there: it holds what it held, and the new statement if it is the current one.
    have hsplit : i ∈ (if b = c then { old with stmts := old.stmts ++ [m.nextId] } else old).stmts ↔
        i ∈ old.stmts ∨ b = c ∧ i = m.nextId := by
      split <;> simp_all
    rw [hsplit, h.mem_stmts hold]
    constructor
    · rintro (⟨s, hs, hsb⟩ | ⟨hbc, rfl⟩)
      · exact ⟨s, extend_stmts_old hs, hsb⟩
      · exact ⟨_, extend_stmts_new .., hbc.symm⟩
    · rintro ⟨s, hs, hsb⟩
      rcases extend_stmts_cases hs with hs | ⟨rfl, rfl⟩
      · exact .inl ⟨s, hs, hsb⟩
      · exact .inr ⟨hsb.symm, rfl⟩
  · -- The block is new: it is empty, and no statement can name it yet.
    simp only [not_mem_nil, false_iff]
    rintro ⟨s, hs, rfl⟩
    rcases extend_stmts_cases hs with hs | ⟨rfl, rfl⟩
    · exact absurd (h.block_lt hs) (Nat.not_lt.2 hle)
    · exact absurd hc (Nat.not_lt.2 hle)

theorem Inv.extend_ascending {blk : Block}
    (hblk : (m.extend n c kind).blocks[b]? = some blk) : blk.stmts.Pairwise (· < ·) := by
  rcases extend_block_cases hc hblk with ⟨old, hold, rfl⟩ | ⟨-, -, rfl⟩
  · split
    · rw [pairwise_append]
      refine ⟨h.ascending hold, by simp, ?_⟩
      intro i hi j hj
      obtain ⟨s, hs, -⟩ := (h.mem_stmts hold).1 hi
      rw [mem_singleton.1 hj]
      exact stmts_lt_nextId hs
    · exact h.ascending hold
  · exact .nil

include hkids

theorem Inv.extend_owned {blk : Block} (hblk : (m.extend n c kind).blocks[b]? = some blk)
    (hb : b ≠ rootBlock) :
    ∃ (o : Nat) (s : Stmt), blk.owner = some o ∧ (m.extend n c kind).stmts[o]? = some s ∧
      b ∈ s.kind.childBlocks ∧ s.block < b ∧ ∀ i ∈ blk.stmts, o < i := by
  rcases extend_block_cases hc hblk with ⟨old, hold, rfl⟩ | ⟨hle, hlt, rfl⟩
  · obtain ⟨o, s, ho, hs, hmem, hsb, hlt⟩ := h.owned hold hb
    refine ⟨o, s, ?_, extend_stmts_old hs, hmem, hsb, ?_⟩
    · split <;> exact ho
    · split
      · intro i hi
        rcases mem_append.1 hi with hi | hi
        · exact hlt i hi
        · rw [mem_singleton.1 hi]
          exact stmts_lt_nextId hs
      · exact hlt
  · refine ⟨m.nextId, _, rfl, extend_stmts_new .., ?_, ?_, by simp⟩
    · rw [hkids, mem_range'_1]
      exact ⟨hle, hlt⟩
    · exact Nat.lt_of_lt_of_le hc hle

theorem Inv.extend_children {i : Nat} {s : Stmt}
    (hs : (m.extend n c kind).stmts[i]? = some s) :
    s.kind.childBlocks.Nodup ∧ ∀ b ∈ s.kind.childBlocks,
      ∃ blk, (m.extend n c kind).blocks[b]? = some blk ∧ blk.owner = some i := by
  rcases extend_stmts_cases hs with hs | ⟨rfl, rfl⟩
  · obtain ⟨hnodup, hmem⟩ := h.children hs
    refine ⟨hnodup, fun b hb => ?_⟩
    obtain ⟨blk, hblk, howner⟩ := hmem b hb
    refine ⟨_, extend_block_old hblk, ?_⟩
    split <;> exact howner
  · rw [hkids]
    refine ⟨nodup_range', fun b hb => ?_⟩
    obtain ⟨hle, hlt⟩ := mem_range'_1.1 hb
    exact ⟨_, extend_block_new hc hle hlt, rfl⟩

/-- **Appending keeps the invariant**, if the operands come from blocks around. -/
theorem Inv.extend (hops : ∀ x ∈ kind.operands, ∃ t, m.stmts[x]? = some t ∧ m.Encloses t.block c) :
    (m.extend n c kind).Inv where
  id_eq hs := by
    rcases extend_stmts_cases hs with hs | ⟨rfl, rfl⟩
    · exact h.id_eq hs
    · rfl
  block_lt hs := by
    rw [extend_blocks_size]
    rcases extend_stmts_cases hs with hs | ⟨rfl, rfl⟩
    · exact Nat.lt_of_lt_of_le (h.block_lt hs) (Nat.le_add_right _ _)
    · exact Nat.lt_of_lt_of_le hc (Nat.le_add_right _ _)
  mem_stmts := h.extend_mem_stmts hc
  ascending := h.extend_ascending hc
  root := by
    obtain ⟨blk, hblk, hnone⟩ := h.root
    refine ⟨_, extend_block_old hblk, ?_⟩
    split <;> exact hnone
  owned := h.extend_owned hc hkids
  children := h.extend_children hc hkids
  operands hs x hx := by
    rcases extend_stmts_cases hs with hs | ⟨rfl, rfl⟩
    · obtain ⟨hlt, t, ht, henc⟩ := h.operands hs x hx
      exact ⟨hlt, t, extend_stmts_old ht, henc.extend⟩
    · obtain ⟨t, ht, henc⟩ := hops x hx
      exact ⟨stmts_lt_nextId ht, t, extend_stmts_old ht, henc.extend⟩

end Extend

/-! ## The stack of open blocks -/

/-- A path down the tree: from `p` on, each block is owned from within the block before it. -/
def Chain (m : Module) : BlockId → List BlockId → Prop
  | _, [] => True
  | p, b :: bs => m.parent? b = some p ∧ m.Chain b bs

/-- A path goes on into a block of its end. -/
theorem chain_append {bs : List BlockId} :
    m.Chain p (bs ++ [b]) ↔ m.Chain p bs ∧ m.parent? b = some (bs.getLast?.getD p) := by
  induction bs generalizing p with
  | nil => simp [Chain]
  | cons a bs ih => simp [Chain, ih, List.getLast?_cons, and_assoc]

theorem Chain.dropLast {bs : List BlockId} (h : m.Chain p bs) : m.Chain p bs.dropLast := by
  rcases eq_nil_or_concat bs with rfl | ⟨init, last, rfl⟩
  · exact h
  · rw [concat_eq_append] at h ⊢
    rw [dropLast_concat]
    exact (chain_append.1 h).1

theorem Chain.extend {bs : List BlockId} (h : m.Chain p bs) : (m.extend n c kind).Chain p bs := by
  induction bs generalizing p with
  | nil => trivial
  | cons a bs ih => exact ⟨extend_parent? h.1, ih h.2⟩

/-- Every block of a path encloses the last one. -/
theorem Chain.encloses {bs : List BlockId} (h : m.Chain p bs) {c : BlockId}
    (hc : c = p ∨ c ∈ bs) : m.Encloses c (bs.getLast?.getD p) := by
  induction bs generalizing p c with
  | nil =>
    rcases hc with rfl | hc
    · exact .refl
    · cases hc
  | cons a bs ih =>
    rw [List.getLast?_cons, Option.getD_some]
    rcases hc with rfl | hc
    · exact (Encloses.step h.1 .refl).trans (ih h.2 (.inl rfl))
    · exact ih h.2 (mem_cons.1 hc)

end Module

namespace Builder

variable {b b' : Builder}

/-- What holds of a builder at every point of a run. -/
structure Inv (b : Builder) : Prop where
  module : b.module.Inv
  chain : b.module.Chain rootBlock b.opened

theorem Inv.encloses (h : b.Inv) {c : BlockId} (hc : c = rootBlock ∨ c ∈ b.opened) :
    b.module.Encloses c b.current :=
  h.chain.encloses hc

theorem Inv.current_lt (h : b.Inv) : b.current < b.module.blocks.size := by
  rcases eq_nil_or_concat b.opened with hnil | ⟨init, last, hlast⟩
  · rw [current, hnil]
    exact h.module.root_lt
  · have hchain := h.chain
    rw [hlast, concat_eq_append, Module.chain_append] at hchain
    obtain ⟨blk, -, -, hblk, -⟩ := Module.parent?_eq_some.1 hchain.2
    rw [current, hlast, concat_eq_append, List.getLast?_concat, Option.getD_some]
    exact (Array.getElem?_eq_some_iff.1 hblk).1

/-- Every move keeps the invariant. -/
theorem Inv.move (h : b.Inv) (hmove : b.Move b') : b'.Inv := by
  cases hmove with
  | append n kind happ =>
    refine ⟨h.module.extend h.current_lt happ.children fun x hx => ?_, h.chain.extend⟩
    obtain ⟨t, ht, hscope⟩ := happ.operands x hx
    exact ⟨t, ht, h.encloses hscope⟩
  | enter block hparent => exact ⟨h.module, Module.chain_append.2 ⟨h.chain, hparent⟩⟩
  | leave => exact ⟨h.module, h.chain.dropLast⟩

end Builder

namespace Session

/-- Every run keeps the invariant. -/
theorem inv_of_run {actions : List Action} {s : Session}
    (h : Session.run {} actions = .ok s) : s.builder.Inv :=
  run_induction (fun _ _ => Builder.Inv.move) h ⟨Module.inv_empty, trivial⟩

/-- **Every run builds a well-formed module**, as long as no step breaks a contract. -/
theorem run_wellFormed {actions : List Action} {s : Session}
    (h : Session.run {} actions = .ok s) : s.builder.module.WellFormed :=
  (inv_of_run h).module.wellFormed

/-- A run that fills an else block first, leaves the loop around it, and comes back. -/
def reentry : List Action :=
  [.create (.const (.i32 4)), .create (.rangeFor (.value 0) false), .openGuard .rangeFor 1,
    .create (.loopIndex 1), .create (.branch 2), .openGuard (.branch false) 3,
    .create (.binary .add 0 2), .closeGuard 1, .closeGuard 0, .create (.const (.i32 7)),
    .openGuard .rangeFor 1, .openGuard (.branch true) 3, .create (.unary .neg 5)]

/-- A loop whose body is opened twice. -/
theorem run_wellFormed_reentry :
    ∃ s, Session.run {} reentry = .ok s ∧ s.builder.opened = [1, 2] ∧
      s.builder.module.WellFormed := by
  have hrun : ∃ s, Session.run {} reentry = .ok s ∧ s.builder.opened = [1, 2] := ⟨_, rfl, rfl⟩
  obtain ⟨s, hs, hopened⟩ := hrun
  exact ⟨s, hs, hopened, run_wellFormed hs⟩

end Session

end WgslKernel
