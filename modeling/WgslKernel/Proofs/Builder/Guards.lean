import Mathlib.Data.List.Induction
import WgslKernel.Proofs.Module.Nesting

/-!
# Guards nest

A guard is a block and a depth.  The same block can be opened many times, also at the same depth, so
a guard could match an entry of the stack that is not its own.  Over the runs of a front end it
never does: `Session.Kept` ties the guards that are still out to the stack, and every step keeps it.
-/

namespace WgslKernel

open List

namespace Module

variable {m : Module} {p : Nat} {bs : List BlockId}

/-- The statement that owns block `b`. -/
def owner? (m : Module) (b : BlockId) : Option StmtId := m.blocks[b]?.bind Block.owner

/-- Blocks are made before the blocks inside them. -/
theorem Inv.chain_ascending (h : m.Inv) (hc : m.Chain p bs) : (p :: bs).Pairwise (· < ·) := by
  induction bs generalizing p with
  | nil => simp
  | cons b bs ih =>
    have hpb : p < b := h.parent_lt hc.1
    have hbs := ih hc.2
    refine pairwise_cons.2 ⟨fun c hmem => ?_, hbs⟩
    rcases mem_cons.1 hmem with rfl | hmem
    · exact hpb
    · exact Nat.lt_trans hpb ((pairwise_cons.1 hbs).1 c hmem)

/-- Around the last block of a path are the owners of the blocks on it, innermost first. -/
theorem Inv.enclosing_chain (h : m.Inv) (hc : m.Chain rootBlock bs) :
    (m.enclosing (bs.getLast?.getD rootBlock)).map some = bs.reverse.map m.owner? := by
  induction bs using List.reverseRecOn with
  | nil => simp [h.enclosing_root]
  | append_singleton bs b ih =>
    obtain ⟨hbs, hparent⟩ := chain_append.1 hc
    obtain ⟨i, s, hs, hsb, hmem⟩ := h.exists_owner hparent
    obtain ⟨blk, hblk, howner⟩ := (h.children hs).2 b hmem
    have hb : m.owner? b = some i := by rw [owner?, hblk, Option.bind_some, howner]
    rw [List.getLast?_concat, Option.getD_some, h.enclosing_child hs hmem, hsb]
    simp [hb, ih hbs]

end Module

namespace Session

variable {actions : List Action} {s s' t : Session} {a : Action} {g : Guard} {k : Nat}

/-! ## Histories -/

theorem run_concat :
    Session.run s (actions ++ [a]) = .ok s' ↔
      ∃ t reply, Session.run s actions = .ok t ∧ t.step a = .ok (s', reply) := by
  induction actions generalizing s with
  | nil =>
    constructor
    · intro h
      obtain ⟨⟨t, reply⟩, ht, h⟩ := bind_eq_ok.1 h
      cases h
      exact ⟨s, reply, rfl, ht⟩
    · rintro ⟨t, reply, ht, h⟩
      cases ht
      exact bind_eq_ok.2 ⟨(s', reply), h, rfl⟩
  | cons c actions ih =>
    constructor
    · intro h
      obtain ⟨⟨u, reply⟩, hu, h⟩ := bind_eq_ok.1 h
      obtain ⟨t, reply', ht, hstep⟩ := ih.1 h
      exact ⟨t, reply', bind_eq_ok.2 ⟨_, hu, ht⟩, hstep⟩
    · rintro ⟨t, reply', ht, hstep⟩
      obtain ⟨⟨u, reply⟩, hu, ht⟩ := bind_eq_ok.1 ht
      exact bind_eq_ok.2 ⟨_, hu, ih.2 ⟨t, reply', ht, hstep⟩⟩

/-- How many guards a list of steps hands out. -/
def opens : List Action → Nat
  | [] => 0
  | .openGuard .. :: actions => opens actions + 1
  | _ :: actions => opens actions

/-- The guards that were handed out and not given back, by their numbers, the oldest first. -/
def pending (actions : List Action) : List Nat :=
  (List.range (opens actions)).filter fun k => .closeGuard k ∉ actions

/-- Guard number `k` of a history is `g`, and was handed out in session `t`. -/
def HandedOut (actions : List Action) (k : Nat) (t : Session) (g : Guard) : Prop :=
  ∃ before opening id after b, actions = before ++ .openGuard opening id :: after ∧
    opens before = k ∧ Session.run {} before = .ok t ∧
    t.builder.openGuard opening id = .ok (b, g)

theorem opens_append (as bs : List Action) : opens (as ++ bs) = opens as + opens bs := by
  induction as with
  | nil => simp [opens]
  | cons c as ih => cases c <;> grind [opens]

/-- A guard is out if it was handed out and not given back. -/
theorem mem_pending : k ∈ pending actions ↔ k < opens actions ∧ .closeGuard k ∉ actions := by
  simp [pending]

theorem pending_ascending (actions : List Action) : (pending actions).Pairwise (· < ·) :=
  pairwise_lt_range.filter _

theorem pending_create (op : Op) : pending (actions ++ [.create op]) = pending actions := by
  simp [pending, opens_append, opens]

theorem pending_openGuard {opening : Opening} {id : StmtId}
    (h : .closeGuard (opens actions) ∉ actions) :
    pending (actions ++ [.openGuard opening id]) = pending actions ++ [opens actions] := by
  simp [pending, opens_append, opens, range_succ, filter_append, h]

theorem pending_closeGuard :
    pending (actions ++ [.closeGuard k]) = (pending actions).filter (· ≠ k) := by
  simp [pending, opens_append, opens, filter_filter, not_or, Bool.and_comm]

theorem HandedOut.concat (h : HandedOut actions k t g) : HandedOut (actions ++ [a]) k t g := by
  obtain ⟨before, opening, id, after, b, rfl, hk, hrun, hopen⟩ := h
  exact ⟨before, opening, id, after ++ [a], b, by simp, hk, hrun, hopen⟩

/-! ## What a history says about the stack -/

/-- The guards on a stack of open blocks. -/
def guardsOf (opened : List BlockId) : List (Option (Option Guard)) :=
  opened.mapIdx fun i b => some (some ⟨b, i + 1⟩)

theorem guardsOf_concat (opened : List BlockId) (b : BlockId) :
    guardsOf (opened ++ [b]) = guardsOf opened ++ [some (some ⟨b, opened.length + 1⟩)] := by
  simp [guardsOf]

/-- The depth of a guard is its place on the stack. -/
theorem depth_le_of_mem_guardsOf {opened : List BlockId} (h : some (some g) ∈ guardsOf opened) :
    g.depth ≤ opened.length := by
  obtain ⟨i, hi, heq⟩ := mem_mapIdx.1 h
  simp only [Option.some.injEq] at heq
  subst heq
  exact hi

/-- How the stack of open blocks and the guards still out go together after a list of steps. -/
structure Kept (actions : List Action) (s : Session) : Prop where
  size : s.guards.size = opens actions
  closed : ∀ k, .closeGuard k ∈ actions → s.guards[k]? = some none
  live : (pending actions).map (s.guards[·]?) = guardsOf s.builder.opened
  since : ∀ k g, s.guards[k]? = some (some g) → ∃ t, HandedOut actions k t g ∧
    g.depth = t.builder.opened.length + 1 ∧
    (t.builder.opened ++ [g.block]).IsPrefix s.builder.opened

namespace Kept

variable (h : Kept actions s)
include h

/-- The session knows the guards that are out. -/
theorem mem_pending_iff : k ∈ pending actions ↔ ∃ g, s.guards[k]? = some (some g) := by
  constructor
  · intro hk
    have hmem : s.guards[k]? ∈ guardsOf s.builder.opened :=
      h.live ▸ mem_map_of_mem hk
    obtain ⟨i, hi, heq⟩ := mem_mapIdx.1 hmem
    exact ⟨_, heq.symm⟩
  · rintro ⟨g, hg⟩
    refine mem_pending.2 ⟨h.size ▸ (Array.getElem?_eq_some_iff.1 hg).1, fun hclosed => ?_⟩
    rw [h.closed k hclosed] at hg
    cases hg

/-- A guard that closes is the last one out, and the others are the guards of the stack below. -/
theorem last_of_close (hg : s.guards[k]? = some (some g)) {b : Builder}
    (hb : s.builder.closeGuard g = .ok b) :
    ∃ init, pending actions = init ++ [k] ∧ s.builder.opened = b.opened ++ [g.block] ∧
      init.map (s.guards[·]?) = guardsOf b.opened := by
  obtain ⟨hdepth, hlast, rfl⟩ := Builder.closeGuard_cases hb
  obtain ⟨opened, hopened⟩ := List.getLast?_eq_some_iff.1 hlast
  have hk : k ∈ pending actions := h.mem_pending_iff.2 ⟨g, hg⟩
  have hlive := h.live
  rw [hopened, guardsOf_concat] at hlive
  obtain ⟨init, rest, hsplit, hinit, hrest⟩ := map_eq_append_iff.1 hlive
  obtain ⟨j, rfl, -⟩ := map_eq_singleton_iff.1 hrest
  rw [hopened, length_append, length_singleton] at hdepth
  rw [hsplit] at hk
  rcases mem_append.1 hk with hk | hk
  · -- Its depth says that the guard is not below the top.
    have hmem : some (some g) ∈ guardsOf opened := hinit ▸ hg ▸ mem_map_of_mem hk
    have := depth_le_of_mem_guardsOf hmem
    omega
  · obtain rfl := mem_singleton.1 hk
    refine ⟨init, hsplit, ?_, ?_⟩
    · simp [hopened]
    · simpa [hopened] using hinit

/-- **The guard that closes is the latest one out.** -/
theorem close_iff (hg : s.guards[k]? = some (some g)) :
    (∃ b, s.builder.closeGuard g = .ok b) ↔ ∀ j ∈ pending actions, j ≤ k := by
  constructor
  · rintro ⟨b, hb⟩ j hj
    obtain ⟨init, hinit, -⟩ := h.last_of_close hg hb
    have hasc := pending_ascending actions
    rw [hinit] at hasc hj
    rcases mem_append.1 hj with hj | hj
    · exact Nat.le_of_lt ((pairwise_append.1 hasc).2.2 j hj k mem_cons_self)
    · exact Nat.le_of_eq (mem_singleton.1 hj)
  · intro hlatest
    have hk : k ∈ pending actions := h.mem_pending_iff.2 ⟨g, hg⟩
    obtain ⟨init, last, hlast⟩ :=
      (eq_nil_or_concat (pending actions)).resolve_left (ne_nil_of_mem hk)
    rw [concat_eq_append] at hlast
    -- The last guard out is not later than `k`, and `k` is not later than the last.
    have hkl : k = last := by
      have hle := hlatest last (by simp [hlast])
      have hasc := pending_ascending actions
      rw [hlast] at hasc hk
      rcases mem_append.1 hk with hk | hk
      · have := (pairwise_append.1 hasc).2.2 k hk last mem_cons_self
        omega
      · exact mem_singleton.1 hk
    subst hkl
    have hlive := h.live
    rcases eq_nil_or_concat s.builder.opened with hnil | ⟨opened, block, hopened⟩
    · simp [hlast, hnil, guardsOf] at hlive
    · rw [concat_eq_append] at hopened
      rw [hlast, hopened, map_append, guardsOf_concat] at hlive
      obtain ⟨-, htop⟩ := append_inj' hlive rfl
      have hguard : g = ⟨block, opened.length + 1⟩ := by simpa [hg] using htop
      refine ⟨_, if_pos ⟨?_, ?_⟩⟩
      · simp [hopened, hguard]
      · simp [hopened, hguard]

omit h in
/-- **Closing restores the stack** of the moment before the guard was handed out. -/
theorem close_restores {b : Builder} (hdepth : g.depth = t.builder.opened.length + 1)
    (hbelow : (t.builder.opened ++ [g.block]).IsPrefix s.builder.opened)
    (hb : s.builder.closeGuard g = .ok b) : b.opened = t.builder.opened := by
  obtain ⟨hlength, -, rfl⟩ := Builder.closeGuard_cases hb
  have hopened : t.builder.opened ++ [g.block] = s.builder.opened := by
    refine hbelow.eq_of_length ?_
    rw [length_append, length_singleton, hlength, hdepth]
  rw [← hopened, dropLast_concat]

/-! ### Every step keeps it -/

theorem create {op : Op} {b : Builder} {id : StmtId} (hb : s.builder.create op = .ok (b, id)) :
    Kept (actions ++ [.create op]) { s with builder := b } := by
  obtain ⟨n, kind, -, -, rfl⟩ := Builder.create_cases hb
  refine ⟨?_, fun k hk => h.closed k (by simpa using hk), ?_, fun k g hg => ?_⟩
  · simp [opens_append, opens, h.size]
  · rw [pending_create]
    exact h.live
  · obtain ⟨t, ht, hrest⟩ := h.since k g hg
    exact ⟨t, ht.concat, hrest⟩

theorem openGuard {opening : Opening} {id : StmtId} {b : Builder}
    (hrun : Session.run {} actions = .ok s) (hb : s.builder.openGuard opening id = .ok (b, g)) :
    Kept (actions ++ [.openGuard opening id]) ⟨b, s.guards.push (some g)⟩ := by
  have hcases := Builder.openGuard_cases hb
  obtain ⟨-, block, -, -, -, rfl, rfl⟩ := hcases
  have hfresh : .closeGuard (opens actions) ∉ actions := fun hmem => by
    have := (Array.getElem?_eq_some_iff.1 (h.closed _ hmem)).1
    rw [h.size] at this
    omega
  refine ⟨?_, fun k hk => ?_, ?_, fun k g hg => ?_⟩
  · simp [opens_append, opens, h.size]
  · have hold := h.closed k (by simpa using hk)
    have hlt := (Array.getElem?_eq_some_iff.1 hold).1
    rw [Array.getElem?_push, if_neg (Nat.ne_of_lt hlt), hold]
  · have hold : (pending actions).map
        ((s.guards.push (some ⟨block, s.builder.opened.length + 1⟩))[·]?) =
          (pending actions).map (s.guards[·]?) := by
      refine map_congr_left fun k hk => ?_
      have hlt : k < s.guards.size := h.size ▸ (mem_pending.1 hk).1
      rw [Array.getElem?_push, if_neg (Nat.ne_of_lt hlt)]
    rw [pending_openGuard hfresh, map_append, hold, h.live, guardsOf_concat]
    simp [← h.size]
  · rw [Array.getElem?_push] at hg
    split at hg
    · -- The guard handed out just now.
      rename_i hk
      cases hg
      refine ⟨s, ⟨actions, opening, id, [], _, rfl, ?_, hrun, hb⟩, rfl, prefix_rfl⟩
      rw [hk, h.size]
    · obtain ⟨t, ht, hdepth, hbelow⟩ := h.since k g hg
      exact ⟨t, ht.concat, hdepth, hbelow.trans (prefix_append _ _)⟩

theorem closeGuard {b : Builder} (hg : s.guards[k]? = some (some g))
    (hb : s.builder.closeGuard g = .ok b) :
    Kept (actions ++ [.closeGuard k]) ⟨b, s.guards.setIfInBounds k none⟩ := by
  obtain ⟨init, hinit, hopened, hlive⟩ := h.last_of_close hg hb
  have hklt : k < s.guards.size := (Array.getElem?_eq_some_iff.1 hg).1
  have hother {j : Nat} (hj : j ≠ k) :
      (s.guards.setIfInBounds k none)[j]? = s.guards[j]? := by
    rw [Array.getElem?_setIfInBounds, if_neg hj.symm]
  have hne : ∀ j ∈ init, j ≠ k := fun j hj => by
    have hasc := pending_ascending actions
    rw [hinit] at hasc
    exact Nat.ne_of_lt ((pairwise_append.1 hasc).2.2 j hj k mem_cons_self)
  refine ⟨?_, fun j hj => ?_, ?_, fun j g' hg' => ?_⟩
  · simp [opens_append, opens, h.size]
  · by_cases hjk : j = k
    · subst hjk
      simp [hklt]
    · rw [hother hjk]
      exact h.closed j (by simpa [hjk] using hj)
  · have hpending : pending (actions ++ [.closeGuard k]) = init := by
      rw [pending_closeGuard, hinit, filter_append, filter_eq_self.2 (by simpa using hne)]
      simp
    rw [hpending, ← hlive]
    exact map_congr_left fun j hj => hother (hne j hj)
  · have hjk : j ≠ k := fun heq => by
      subst heq
      simp [hklt] at hg'
    rw [hother hjk] at hg'
    obtain ⟨t, ht, hdepth, hbelow⟩ := h.since j g' hg'
    refine ⟨t, ht.concat, hdepth, ?_⟩
    -- The guard is still out, so it is one of those below the top.
    have hj : j ∈ init := by
      have hj := h.mem_pending_iff.2 ⟨g', hg'⟩
      rw [hinit] at hj
      exact (mem_append.1 hj).resolve_right fun hmem => hjk (mem_singleton.1 hmem)
    have hmem : some (some g') ∈ guardsOf b.opened := hlive ▸ hg' ▸ mem_map_of_mem hj
    have hle := depth_le_of_mem_guardsOf hmem
    rw [hopened] at hbelow
    refine prefix_of_prefix_length_le hbelow (prefix_append _ _) ?_
    simpa [hdepth] using hle

/-- Every step keeps the guards in order. -/
theorem step {reply : Reply} (hrun : Session.run {} actions = .ok s)
    (hstep : s.step a = .ok (s', reply)) : Kept (actions ++ [a]) s' := by
  cases a with
  | create op =>
    obtain ⟨⟨b, id⟩, hb, hstep⟩ := bind_eq_ok.1 hstep
    cases hstep
    exact h.create hb
  | openGuard opening id =>
    obtain ⟨⟨b, guard⟩, hb, hstep⟩ := bind_eq_ok.1 hstep
    cases hstep
    exact h.openGuard hrun hb
  | closeGuard handle =>
    rw [Session.step] at hstep
    split at hstep
    · rename_i guard hguard
      obtain ⟨b, hb, hstep⟩ := bind_eq_ok.1 hstep
      cases hstep
      exact h.closeGuard hguard hb
    · cases hstep

end Kept

/-- After every run the guards still out are the stack. -/
theorem kept_of_run (hrun : Session.run {} actions = .ok s) : Kept actions s := by
  induction actions using List.reverseRecOn generalizing s with
  | nil =>
    cases hrun
    exact ⟨rfl, by simp, rfl, by simp⟩
  | append_singleton actions a ih =>
    obtain ⟨t, reply, ht, hstep⟩ := run_concat.1 hrun
    exact (ih ht).step ht hstep

/-- A module is finished if every guard was given back. -/
theorem finish_iff (hrun : Session.run {} actions = .ok s) :
    (∃ m, s.builder.finish = .ok m) ↔ ∀ k < opens actions, .closeGuard k ∈ actions := by
  have hlength : s.builder.opened.length = (pending actions).length := by
    simpa [guardsOf] using (congrArg List.length (kept_of_run hrun).live).symm
  have hfinish : (∃ m, s.builder.finish = .ok m) ↔ s.builder.opened = [] := by
    rw [Builder.finish]
    split <;> simp_all
  rw [hfinish, ← length_eq_zero_iff, hlength, length_eq_zero_iff]
  simp [pending]

/-- **Guards nest.**  After every run, the open blocks are a strict chain of ancestors, and the
statements around the current block are their owners.  The guards that are still out are the entries
of the stack, in order.  Such a guard closes exactly if it is the latest one still out, and the open
blocks are then those of the moment before it was handed out.  The module can be finished exactly if
every guard was given back. -/
theorem guards_nest (hrun : Session.run {} actions = .ok s) :
    (s.builder.module.Chain rootBlock s.builder.opened ∧ s.builder.opened.Nodup ∧
      (s.builder.module.enclosing s.builder.current).map some =
        s.builder.opened.reverse.map s.builder.module.owner?) ∧
    (pending actions).map (s.guards[·]?) =
      s.builder.opened.mapIdx (fun i b => some (some ⟨b, i + 1⟩)) ∧
    (∀ k ∈ pending actions, ∃ g t, s.guards[k]? = some (some g) ∧ HandedOut actions k t g ∧
      ((∃ b, s.builder.closeGuard g = .ok b) ↔ ∀ j ∈ pending actions, j ≤ k) ∧
      ∀ b, s.builder.closeGuard g = .ok b →
        b.opened = t.builder.opened ∧ b.current = t.builder.current ∧
          b.opened.length = t.builder.opened.length) ∧
    ((∃ m, s.builder.finish = .ok m) ↔ ∀ k < opens actions, .closeGuard k ∈ actions) := by
  have hinv := inv_of_run hrun
  have hkept := kept_of_run hrun
  have hnodup : s.builder.opened.Nodup :=
    (pairwise_cons.1 (hinv.module.chain_ascending hinv.chain)).2.imp
      fun hlt => Nat.ne_of_lt hlt
  refine ⟨⟨hinv.chain, hnodup, hinv.module.enclosing_chain hinv.chain⟩, hkept.live, fun k hk => ?_,
    finish_iff hrun⟩
  obtain ⟨g, hg⟩ := hkept.mem_pending_iff.1 hk
  obtain ⟨t, ht, hdepth, hbelow⟩ := hkept.since k g hg
  refine ⟨g, t, hg, ht, hkept.close_iff hg, fun b hb => ?_⟩
  have hopened : b.opened = t.builder.opened := Kept.close_restores hdepth hbelow hb
  exact ⟨hopened, by rw [Builder.current, Builder.current, hopened], by rw [hopened]⟩

/-- The loop body is opened twice, each time as the only open block; two guards are still out. -/
theorem guards_nest_reentry :
    ∃ s, Session.run {} reentry = .ok s ∧ s.builder.opened = [1, 2] ∧ pending reentry = [2, 3] ∧
      ∃ g t, s.guards[3]? = some (some g) ∧ HandedOut reentry 3 t g ∧
        ∃ b, s.builder.closeGuard g = .ok b ∧ b.opened = t.builder.opened := by
  have hrun : ∃ s, Session.run {} reentry = .ok s ∧ s.builder.opened = [1, 2] := ⟨_, rfl, rfl⟩
  obtain ⟨s, hs, hopened⟩ := hrun
  have hpending : pending reentry = [2, 3] := by decide
  obtain ⟨-, -, hclose, -⟩ := guards_nest hs
  obtain ⟨g, t, hg, ht, hiff, hrestores⟩ := hclose 3 (by simp [hpending])
  obtain ⟨b, hb⟩ := hiff.2 (by simp [hpending])
  exact ⟨s, hs, hopened, hpending, g, t, hg, ht, b, hb, (hrestores b hb).1⟩

end Session

end WgslKernel
