import WgslKernel.Builder.Op
import WgslKernel.Proofs.Except

/-!
# What one step of a front end does

Some forty requests and five openings come down to three moves: a statement is appended with the
blocks it owns, a block is opened, or the block opened last is closed.  Everything that holds along
all runs is proved from these, without looking at the requests again.
-/

namespace WgslKernel

namespace Module

/-! ## Appending a statement with its blocks -/

/-- The module with `n` more empty blocks, all owned by the statement that comes next. -/
def reserve (m : Module) : Nat → Module
  | 0 => m
  | n + 1 => ((m.reserve n).newBlock m.nextId).1

/-- The module after a statement owning `n` new blocks was appended to block `b`. -/
def extend (m : Module) (n : Nat) (b : BlockId) (kind : Kind) : Module :=
  (m.reserve n).append b kind

variable {m : Module} {n c b : Nat} {kind : Kind}

@[simp] theorem reserve_stmts (m : Module) (n : Nat) : (m.reserve n).stmts = m.stmts := by
  induction n with
  | zero => rfl
  | succ n ih => rw [reserve, newBlock, ih]

@[simp] theorem reserve_nextId (m : Module) (n : Nat) : (m.reserve n).nextId = m.nextId := by
  rw [nextId, reserve_stmts, nextId]

@[simp] theorem reserve_blocks_size (m : Module) (n : Nat) :
    (m.reserve n).blocks.size = m.blocks.size + n := by
  induction n with
  | zero => rfl
  | succ n ih => rw [reserve, newBlock, Array.size_push, ih, Nat.add_assoc]

theorem reserve_blocks (m : Module) (n b : Nat) :
    (m.reserve n).blocks[b]? =
      if b < m.blocks.size then m.blocks[b]?
      else if b < m.blocks.size + n then some { owner := some m.nextId } else none := by
  induction n with
  | zero =>
    by_cases h : b < m.blocks.size
    · simp [reserve, h]
    · simp [reserve, h]
  | succ n ih =>
    rw [reserve, newBlock, Array.getElem?_push, ih, reserve_blocks_size]
    by_cases h : b < m.blocks.size
    · simp [h, show b ≠ m.blocks.size + n by omega]
    · by_cases hb : b = m.blocks.size + n
      · simp [hb]
      · have hiff : b < m.blocks.size + (n + 1) ↔ b < m.blocks.size + n := by omega
        simp [h, hb, hiff]

@[simp] theorem extend_blocks_size (m : Module) (n c : Nat) (kind : Kind) :
    (m.extend n c kind).blocks.size = m.blocks.size + n := by
  simp [extend, append]

/-- Appending adds one statement. -/
theorem extend_stmts (m : Module) (n c : Nat) (kind : Kind) (i : Nat) :
    (m.extend n c kind).stmts[i]? =
      if i = m.nextId then some ⟨m.nextId, c, kind⟩ else m.stmts[i]? := by
  rw [extend, append, reserve_stmts, reserve_nextId, Array.getElem?_push]
  rfl

theorem extend_stmts_new (m : Module) (n c : Nat) (kind : Kind) :
    (m.extend n c kind).stmts[m.nextId]? = some ⟨m.nextId, c, kind⟩ := by
  rw [extend_stmts, if_pos rfl]

theorem extend_stmts_old {i : Nat} {s : Stmt} (h : m.stmts[i]? = some s) :
    (m.extend n c kind).stmts[i]? = some s := by
  have hi : i < m.nextId := (Array.getElem?_eq_some_iff.1 h).1
  rw [extend_stmts, if_neg (Nat.ne_of_lt hi), h]

theorem extend_stmts_cases {i : Nat} {s : Stmt}
    (h : (m.extend n c kind).stmts[i]? = some s) :
    m.stmts[i]? = some s ∨ i = m.nextId ∧ s = ⟨m.nextId, c, kind⟩ := by
  rw [extend_stmts] at h
  split at h
  · rename_i hi
    exact .inr ⟨hi, (Option.some.inj h).symm⟩
  · exact .inl h

/-- What becomes of a block that was there: only the current one changes, at its end. -/
theorem extend_block_old {blk : Block} (h : m.blocks[b]? = some blk) :
    (m.extend n c kind).blocks[b]? =
      some (if b = c then { blk with stmts := blk.stmts ++ [m.nextId] } else blk) := by
  have hb : b < m.blocks.size := (Array.getElem?_eq_some_iff.1 h).1
  rw [extend, append]
  simp only [Array.getElem?_modify, reserve_blocks, if_pos hb, h, reserve_nextId]
  by_cases hc : c = b
  · subst hc
    simp
  · simp [hc, Ne.symm hc]

/-- The blocks of the new statement are empty and know their owner. -/
theorem extend_block_new (hc : c < m.blocks.size) (h₁ : m.blocks.size ≤ b)
    (h₂ : b < m.blocks.size + n) :
    (m.extend n c kind).blocks[b]? = some { owner := some m.nextId } := by
  rw [extend, append]
  have hcb : c ≠ b := by omega
  simp only [Array.getElem?_modify, if_neg hcb, reserve_blocks]
  rw [if_neg (by omega), if_pos h₂]

/-- Appending changes the current block and adds the next ones. -/
theorem extend_block_cases {blk : Block} (hc : c < m.blocks.size)
    (h : (m.extend n c kind).blocks[b]? = some blk) :
    (∃ old, m.blocks[b]? = some old ∧
        blk = if b = c then { old with stmts := old.stmts ++ [m.nextId] } else old) ∨
      m.blocks.size ≤ b ∧ b < m.blocks.size + n ∧ blk = { owner := some m.nextId } := by
  have hb : b < m.blocks.size + n := by
    have := (Array.getElem?_eq_some_iff.1 h).1
    rwa [extend_blocks_size] at this
  by_cases hlt : b < m.blocks.size
  · refine .inl ⟨m.blocks[b], by simp, ?_⟩
    rw [extend_block_old (Array.getElem?_eq_getElem hlt)] at h
    exact (Option.some.inj h).symm
  · refine .inr ⟨Nat.le_of_not_lt hlt, hb, ?_⟩
    rw [extend_block_new hc (Nat.le_of_not_lt hlt) hb] at h
    exact (Option.some.inj h).symm

/-! ## Looking up -/

theorem stmt_eq_ok {i : Nat} {s : Stmt} : m.stmt i = .ok s ↔ m.stmts[i]? = some s := by
  unfold stmt
  split <;> simp_all

theorem block_eq_ok {blk : Block} : m.block b = .ok blk ↔ m.blocks[b]? = some blk := by
  unfold block
  split <;> simp_all

/-- The block that holds the owner of block `b`. -/
def parent? (m : Module) (b : BlockId) : Option BlockId := do
  let blk ← m.blocks[b]?
  let owner ← blk.owner
  let s ← m.stmts[owner]?
  some s.block

theorem parent?_eq_some {p : Nat} :
    m.parent? b = some p ↔ ∃ blk owner s, m.blocks[b]? = some blk ∧ blk.owner = some owner ∧
      m.stmts[owner]? = some s ∧ s.block = p := by
  simp [parent?, Option.bind_eq_some_iff]

/-! ## What a request has to satisfy -/

/-- Statement `id` is there and fit for a role. -/
def Plays (m : Module) (id : StmtId) (role : Role) : Prop :=
  ∃ kind, m.kind? id = some kind ∧ role.admits kind = true

theorem Plays.alloca {id : StmtId} (h : m.Plays id .alloca) :
    ∃ ty, m.kind? id = some (.alloca ty) := by
  obtain ⟨kind, hkind, hrole⟩ := h
  cases kind <;> simp [Role.admits] at hrole
  exact ⟨_, hkind⟩

theorem Plays.temporary {id : StmtId} (h : m.Plays id .temporary) :
    ∃ ty offset, m.kind? id = some (.temporary ty offset) := by
  obtain ⟨kind, hkind, hrole⟩ := h
  cases kind <;> simp [Role.admits] at hrole
  exact ⟨_, _, hkind⟩

theorem Plays.rangeFor {id : StmtId} (h : m.Plays id .rangeFor) :
    ∃ bound serial body, m.kind? id = some (.rangeFor bound serial body) := by
  obtain ⟨kind, hkind, hrole⟩ := h
  cases kind <;> simp [Role.admits] at hrole
  exact ⟨_, _, _, hkind⟩

/-- Kind of the innermost loop-like statement around block `b`. -/
def loopAround (m : Module) (b : BlockId) : Option Kind :=
  ((m.enclosing b).filterMap m.kind?).find? Kind.isLoop

/-- What a statement of block `b` has to satisfy besides reading only what is in scope. -/
def Admits (m : Module) (b : BlockId) : Kind → Prop
  | .loopIndex loop => m.Plays loop .rangeFor ∧ loop ∈ m.enclosing b
  | .extract _ index => index < 4
  | .exitLoop => ∃ body, m.loopAround b = some (.whileTrue body)
  | .nextIteration =>
    (∃ body, m.loopAround b = some (.whileTrue body)) ∨
      ∃ bound serial body, m.loopAround b = some (.rangeFor bound serial body)
  | .localLoad ptr | .localStore ptr _ => m.Plays ptr .alloca
  | .globalPtr field indices elementOffset =>
    indices.length = field.shape.length ∧ elementOffset < field.components
  | .globalLoad ptr | .globalStore ptr _ => m.Plays ptr .globalPointer
  | .temporaryLoad ptr | .temporaryStore ptr _ => m.Plays ptr .temporary
  | .atomic _ ptr _ | .atomicLoad ptr | .atomicStore ptr _ => m.Plays ptr .atomicTarget
  | .texture _ texture coords => coords.length = texture.dim.coordCount
  | .ret values => values ≠ []
  | _ => True

end Module

namespace Builder

variable {b b' : Builder} {id : StmtId} {kind : Kind}

/-! ## Requests -/

/-- A statement that may be appended: it owns the next `n` blocks, and is in scope and in order. -/
structure Appends (b : Builder) (n : Nat) (kind : Kind) : Prop where
  children : kind.childBlocks = List.range' b.module.blocks.size n
  operands : ∀ x ∈ kind.operands, ∃ s, b.module.stmts[x]? = some s ∧
    (s.block = rootBlock ∨ s.block ∈ b.opened)
  admits : b.module.Admits b.current kind

theorem checkOperand_eq_ok {x : StmtId} :
    b.checkOperand kind x = .ok () ↔
      ∃ s, b.module.stmts[x]? = some s ∧ (s.block = rootBlock ∨ s.block ∈ b.opened) := by
  unfold checkOperand
  split
  · rename_i h
    simp [h]
  · rename_i s h
    split
    · rename_i hs
      simp [h, hs]
    · rename_i hs
      simp [h, hs]

theorem expect_eq_ok {role : Role} : b.expect id role = .ok () ↔ b.module.Plays id role := by
  unfold expect Module.Plays
  split
  · rename_i h
    simp [h]
  · rename_i k h
    split
    · rename_i hk
      simp [h, hk]
    · rename_i hk
      simp [h, hk]

/-- When a statement can be appended. -/
theorem append_eq_ok :
    b.append kind = .ok (b', id) ↔
      (∀ x ∈ kind.operands, ∃ s, b.module.stmts[x]? = some s ∧
        (s.block = rootBlock ∨ s.block ∈ b.opened)) ∧
      b' = { b with module := b.module.append b.current kind } ∧ id = b.module.nextId := by
  rw [append, bind_eq_ok]
  constructor
  · rintro ⟨⟨⟩, hops, h⟩
    cases h
    exact ⟨fun x hx => checkOperand_eq_ok.1 (forM_eq_ok.1 hops x hx), rfl, rfl⟩
  · rintro ⟨hops, rfl, rfl⟩
    exact ⟨(), forM_eq_ok.2 fun x hx => checkOperand_eq_ok.2 (hops x hx), rfl⟩

/-- The outcome of a request: some statement was appended, with its blocks. -/
def Extended (b b' : Builder) (id : StmtId) : Prop :=
  ∃ n kind, b.Appends n kind ∧ id = b.module.nextId ∧
    b' = { b with module := b.module.extend n b.current kind }

theorem extended_of_append (h : b.append kind = .ok (b', id)) (hc : kind.childBlocks = [])
    (ha : b.module.Admits b.current kind) : b.Extended b' id := by
  obtain ⟨hops, rfl, rfl⟩ := append_eq_ok.1 h
  exact ⟨0, kind, ⟨by simpa using hc, hops, ha⟩, rfl, rfl⟩

theorem extended_of_appendWithBlock {kind : BlockId → Kind}
    (h : b.appendWithBlock kind = .ok (b', id)) (hc : ∀ body, (kind body).childBlocks = [body])
    (ha : ∀ body, b.module.Admits b.current (kind body)) : b.Extended b' id := by
  obtain ⟨hops, rfl, rfl⟩ := append_eq_ok.1 h
  exact ⟨1, kind b.module.blocks.size, ⟨by simp [hc], hops, ha _⟩, rfl, rfl⟩

theorem extended_of_appendWithBlocks {kind : BlockId → BlockId → Kind}
    (h : b.appendWithBlocks kind = .ok (b', id))
    (hc : ∀ first second, (kind first second).childBlocks = [first, second])
    (ha : ∀ first second, b.module.Admits b.current (kind first second)) :
    b.Extended b' id := by
  obtain ⟨hops, rfl, rfl⟩ := append_eq_ok.1 h
  refine ⟨2, kind b.module.blocks.size (b.module.blocks.size + 1), ⟨?_, ?_, ha _ _⟩, rfl, ?_⟩
  · rw [hc]
    rfl
  · simpa [Module.newBlock] using hops
  · simp [Module.newBlock, Module.extend, Module.reserve, Module.nextId, current]

theorem extended_of_createTexture {access : TextureAccess} {texture : Texture}
    {coords : List StmtId} (h : b.createTexture access texture coords = .ok (b', id)) :
    b.Extended b' id := by
  rw [createTexture] at h
  split at h
  · rename_i hlen
    exact extended_of_append h rfl hlen
  · cases h

/-- **Every request is an append** of a statement that satisfies `Module.Admits`. -/
theorem create_cases {op : Op} (h : b.create op = .ok (b', id)) : b.Extended b' id := by
  cases op with
  | const | argLoad | rand | unary | binary | localVar | temporary | vertexInput | vertexOutput
  | fragmentInput | builtinInput | depthOutput | derivative | discard =>
    exact extended_of_append h rfl trivial
  | loopIndex loop =>
    obtain ⟨⟨⟩, he, h⟩ := bind_eq_ok.1 h
    split at h
    · rename_i hl
      exact extended_of_append h rfl ⟨expect_eq_ok.1 he, hl⟩
    · cases h
  | extract composite index =>
    rw [create] at h
    split at h
    · rename_i hi
      exact extended_of_append h rfl hi
    · cases h
  | rangeFor | whileTrue | vertexFor | fragmentFor =>
    exact extended_of_appendWithBlock h (fun _ => rfl) (fun _ => trivial)
  | branch cond => exact extended_of_appendWithBlocks h (fun _ _ => rfl) (fun _ _ => trivial)
  | exitLoop =>
    rw [create] at h
    split at h
    · rename_i body hl
      exact extended_of_append h rfl ⟨body, hl⟩
    · cases h
  | nextIteration =>
    rw [create] at h
    split at h
    · rename_i body hl
      exact extended_of_append h rfl (.inl ⟨body, hl⟩)
    · rename_i bound serial body hl
      exact extended_of_append h rfl (.inr ⟨bound, serial, body, hl⟩)
    · cases h
  | localLoad | localStore | globalLoad | globalStore | temporaryLoad | temporaryStore
  | atomic | atomicLoad | atomicStore =>
    obtain ⟨⟨⟩, he, h⟩ := bind_eq_ok.1 h
    exact extended_of_append h rfl (expect_eq_ok.1 he)
  | globalPtr field indices elementOffset =>
    rw [create] at h
    split at h
    · cases h
    · rename_i hlen
      split at h
      · rename_i hoff
        exact extended_of_append h rfl ⟨not_not.1 hlen, hoff⟩
      · cases h
  | positionOutput | colorOutput =>
    obtain ⟨q, -, h⟩ := bind_eq_ok.1 h
    exact extended_of_append h rfl trivial
  | textureSample | textureSampleLod | textureLoad => exact extended_of_createTexture h
  | textureStore texture coords values =>
    obtain ⟨q, -, h⟩ := bind_eq_ok.1 h
    exact extended_of_createTexture h
  | ret values =>
    rw [create] at h
    split at h
    · cases h
    · rename_i hv
      exact extended_of_append h rfl hv

/-- An opened block is owned by a statement of the block that was current. -/
theorem openGuard_cases {opening : Opening} {guard : Guard}
    (h : b.openGuard opening id = .ok (b', guard)) :
    ∃ s block, b.module.stmts[id]? = some s ∧ opening.block? s.kind = some block ∧
      b.module.parent? block = some b.current ∧
      b' = { b with opened := b.opened ++ [block] } ∧
      guard = ⟨block, b.opened.length + 1⟩ := by
  obtain ⟨s, hs, h⟩ := bind_eq_ok.1 h
  split at h
  · cases h
  · rename_i block hblock
    obtain ⟨blk, hblk, h⟩ := bind_eq_ok.1 h
    split at h
    · cases h
    · rename_i owner howner
      obtain ⟨o, ho, h⟩ := bind_eq_ok.1 h
      split at h
      · rename_i hcur
        cases h
        refine ⟨s, block, Module.stmt_eq_ok.1 hs, hblock, ?_, rfl, rfl⟩
        rw [Module.parent?_eq_some]
        exact ⟨blk, owner, o, Module.block_eq_ok.1 hblk, howner, Module.stmt_eq_ok.1 ho, hcur⟩
      · cases h

/-- A guard closes what was opened last. -/
theorem closeGuard_cases {guard : Guard} (h : b.closeGuard guard = .ok b') :
    b.opened.length = guard.depth ∧ b.opened.getLast? = some guard.block ∧
      b' = { b with opened := b.opened.dropLast } := by
  rw [closeGuard] at h
  split at h
  · rename_i hg
    cases h
    exact ⟨hg.1, hg.2, rfl⟩
  · cases h

/-- What a step can do to a builder. -/
inductive Move (b : Builder) : Builder → Prop where
  | append (n : Nat) (kind : Kind) (h : b.Appends n kind) :
    Move b { b with module := b.module.extend n b.current kind }
  | enter (block : BlockId) (h : b.module.parent? block = some b.current) :
    Move b { b with opened := b.opened ++ [block] }
  | leave (h : b.opened ≠ []) : Move b { b with opened := b.opened.dropLast }

end Builder

namespace Session

variable {s s' : Session}

/-- A step is one of the three moves. -/
theorem step_move {a : Action} {reply : Reply} (h : s.step a = .ok (s', reply)) :
    s.builder.Move s'.builder := by
  cases a with
  | create op =>
    obtain ⟨⟨b, id⟩, hb, h⟩ := bind_eq_ok.1 h
    cases h
    obtain ⟨n, kind, happ, -, rfl⟩ := Builder.create_cases hb
    exact .append n kind happ
  | openGuard opening id =>
    obtain ⟨⟨b, guard⟩, hb, h⟩ := bind_eq_ok.1 h
    cases h
    obtain ⟨-, block, -, -, hparent, rfl, -⟩ := Builder.openGuard_cases hb
    exact .enter block hparent
  | closeGuard handle =>
    rw [step] at h
    split at h
    · obtain ⟨b, hb, h⟩ := bind_eq_ok.1 h
      cases h
      obtain ⟨-, hlast, rfl⟩ := Builder.closeGuard_cases hb
      refine .leave fun hnil => ?_
      rw [hnil] at hlast
      cases hlast
    · cases h

/-- **What every move preserves holds after every run.** -/
theorem run_induction {P : Builder → Prop} (hmove : ∀ b b', P b → b.Move b' → P b')
    {actions : List Action} (h : s.run actions = .ok s') (hs : P s.builder) : P s'.builder := by
  induction actions generalizing s with
  | nil =>
    cases h
    exact hs
  | cons a actions ih =>
    obtain ⟨⟨t, reply⟩, ht, h⟩ := bind_eq_ok.1 h
    exact ih h (hmove _ _ hs (step_move ht))

end Session

end WgslKernel
