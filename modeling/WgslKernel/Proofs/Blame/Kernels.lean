import Mathlib.Data.List.Pairwise
import WgslKernel.Proofs.Blame.Walks
import WgslKernel.Proofs.Module.Partition
import WgslKernel.Proofs.Module.WalkOrder

/-!
# Operands that are said to be foreign

Two parts of the compiler raise the error that a statement reads what another offload computes.  The
partition is right about it.  The generator raises it when it finds no value for an operand, and by
then the operand is known to be in the reader's own offload: it yields no value, or is walked after
its reader.
-/

namespace WgslKernel

open List

section Lists

variable {α β : Type} {l l' : List α} {x y : α}

theorem exists_of_mem_forall₂ {R : α → β → Prop} {r : List β} (h : List.Forall₂ R l r) {b : β}
    (hb : b ∈ r) : ∃ a ∈ l, R a b := by
  induction h with
  | nil => cases hb
  | cons hab _ ih =>
    rcases mem_cons.1 hb with rfl | hb
    · exact ⟨_, mem_cons_self, hab⟩
    · obtain ⟨a, ha, hr⟩ := ih hb
      exact ⟨a, mem_cons_of_mem _ ha, hr⟩

/-- Two members of a list stand in it in one order or the other. -/
theorem pair_sublist_or (hx : x ∈ l) (hy : y ∈ l) (hne : x ≠ y) :
    [x, y].Sublist l ∨ [y, x].Sublist l := by
  induction l with
  | nil => cases hx
  | cons z l ih =>
    rcases mem_cons.1 hx with rfl | hxl
    · have hyl := (mem_cons.1 hy).resolve_left hne.symm
      exact .inl ((singleton_sublist.2 hyl).cons_cons x)
    rcases mem_cons.1 hy with rfl | hyl
    · exact .inr ((singleton_sublist.2 hxl).cons_cons y)
    · exact (ih hxl hyl).imp (·.cons z) (·.cons z)

/-- Members of a part of a list stand there in the order of the list. -/
theorem pair_sublist_of_sublist (hl : l.Nodup) (hsub : l'.Sublist l) (hx : x ∈ l') (hy : y ∈ l')
    (h : [x, y].Sublist l) : [x, y].Sublist l' := by
  have hne : x ≠ y := by
    have := h.nodup hl
    simpa using this
  refine (pair_sublist_or hx hy hne).resolve_right fun h' => ?_
  exact not_pair_sublist_of_nodup hl h (h'.trans hsub)

end Lists

variable {m : Module} {signature : Signature} {config : Config} {e : CodegenError}

namespace Module

variable {o q : Offload} {i x : StmtId} {previous : Option Task}

/-! ## What belongs to an offload -/

/-- A walk comes to what is nested in the offload. -/
theorem Inv.mem_offload_ids (h : m.Inv) (ho : o ∈ m.groups) :
    x ∈ (m.outlineOf m.outline o.stmts).ids ↔ m.NestedIn o.stmts x := by
  obtain ⟨members, hmembers, -, hnested⟩ := h.nested_eq_ok ho
  rw [← mem_nested hmembers, hnested]

/-- A statement belongs to one offload at most. -/
theorem Inv.group_unique (h : m.Inv) (ho : o ∈ m.groups) (hq : q ∈ m.groups)
    (hio : m.NestedIn o.stmts i) (hiq : m.NestedIn q.stmts i) : o = q := by
  have hsplit : m.groups.flatMap (fun o => (m.outlineOf m.outline o.stmts).ids) =
      m.topLevel.flatMap m.subtree := by
    rw [← m.splits_groups.whole]
    simp [outlineOf_ids, List.flatMap, map_flatten, Function.comp_def, flatten_flatten]
  have hsub : (m.topLevel.flatMap m.subtree).Sublist m.walk := by
    rw [walk, h.outline_ids]
    exact filter_sublist.flatMap m.subtree
  have hnodup := hsub.nodup h.nodup_walk
  rw [← hsplit, nodup_flatMap] at hnodup
  by_contra hne
  have hsymm : Std.Symm (Function.onFun List.Disjoint fun o : Offload =>
      (m.outlineOf m.outline o.stmts).ids) := ⟨fun _ _ h a ha hb => h hb ha⟩
  have hapart := hnodup.2.forall ho hq hne
  exact hapart ((h.mem_offload_ids ho).2 hio) ((h.mem_offload_ids hq).2 hiq)

/-- No block of a statement is around the top level. -/
theorem Inv.not_encloses_root (h : m.Inv) {s : Stmt} {c : BlockId} (hs : m.stmts[i]? = some s)
    (hc : c ∈ s.kind.childBlocks) : ¬ m.Encloses c rootBlock := by
  intro henc
  have hle := h.le_of_encloses henc
  have hlt := h.parent_lt (h.parent?_child hs hc)
  exact Nat.not_lt_zero _ (Nat.lt_of_lt_of_le hlt hle)

/-- Offloads are made of the top level. -/
theorem Inv.block_of_mem_groups (h : m.Inv) (ho : o ∈ m.groups) {s : Stmt} (hi : i ∈ o.stmts)
    (hs : m.stmts[i]? = some s) : s.block = rootBlock := by
  obtain ⟨t, ht, hroot⟩ := h.of_mem_blockStmts ((stmts_sublist_of_mem_groups ho).subset hi)
  cases hs.symm.trans ht
  exact hroot

/-- A statement at the top level reads nothing that is nested in it. -/
theorem Inv.not_nestedIn_operand (h : m.Inv) (ho : o ∈ m.groups) {s : Stmt}
    (hstmts : o.stmts = [s.id]) (hs : m.stmts[s.id]? = some s) (hx : x ∈ s.kind.operands) :
    ¬ m.NestedIn o.stmts x := by
  have hroot := h.block_of_mem_groups ho (by simp [hstmts]) hs
  obtain ⟨hlt, t, ht, henc⟩ := h.operands hs x hx
  rw [hroot] at henc
  rintro ⟨j, hj, hunder⟩
  rw [hstmts, mem_singleton] at hj
  subst hj
  rcases hunder with rfl | ⟨s', t', c, hs', hc, ht', henc'⟩
  · exact Nat.lt_irrefl _ hlt
  · cases hs.symm.trans hs'
    cases ht.symm.trans ht'
    exact h.not_encloses_root hs hc (henc'.trans henc)

/-- The exception for loaded bounds is for the root, which is not walked. -/
theorem Inv.not_isLoadedBound (h : m.Inv) (ho : o ∈ m.groups) {ctx ctx' : Codegen.Context}
    {st st₀ : Codegen.State} {p : Outline} {t : Stmt} (hm : ctx.module = m)
    (hstarts : Codegen.Starts ctx st o ctx' st₀ p) (ht : t ∈ p.stmts) :
    ¬ m.IsLoadedBound o t.id x := by
  subst hm
  rintro ⟨hkind, hstmts, -⟩
  cases hstarts with
  | serial hserial => simp [hserial] at hkind
  | vertexFor hvertex => simp [hvertex] at hkind
  | fragmentFor hfragment => simp [hfragment] at hkind
  | rangeFor _ hroot hs hfor =>
    cases hstmts.symm.trans hroot
    have hblock := h.block_of_mem_groups ho (by simp [hstmts]) hs
    obtain ⟨u, hu, henc⟩ := (h.mem_outline_ids_iff _).1 (mem_map_of_mem ht)
    cases hs.symm.trans hu
    rw [hblock] at henc
    exact h.not_encloses_root hs (by rw [hfor]; exact mem_cons_self) henc

/-! ## Errors of the generator -/

section Generate

variable (hinv : m.Inv)
  (hadmits : ∀ (i : Nat) (t : Stmt), m.stmts[i]? = some t → m.Admits t.block t.kind)
  (ho : o ∈ m.groups)
include hinv hadmits ho

/-- An error of the generator is about a statement that a walk came to, or about the root. -/
theorem Inv.blame_of_generate (h : generate m o signature config previous = .error (.error e)) :
    (∃ bindings ctx st p, ctx.module = m ∧
      Codegen.Starts (Codegen.contextOf m o signature config previous) { bindings } o ctx st p ∧
      Codegen.BlamedIn ctx st p e) ∨ Codegen.BlamedAt m o e := by
  obtain ⟨bindings, hdraft⟩ := draft_of_generate_eq_error h
  rcases Codegen.blame_of_draft hinv ho rfl hdraft with ⟨ctx, st, p, hstarts, hwalk⟩ | hroot
  · have hmodule : ctx.module = m := by rw [hstarts.context_eq]; rfl
    refine .inl ⟨bindings, ctx, st, p, hmodule, hstarts, Codegen.blame_of_walk ?_ hwalk⟩
    intro t ht loop hkind
    obtain ⟨around, hplaced⟩ := hstarts.placed hinv ho
    have hadm := hadmits t.id t (hplaced.found_of_mem ht)
    rw [hkind] at hadm
    rw [hmodule]
    exact hadm.2
  · exact .inr hroot

/-- An error is about a statement that is there. -/
theorem Inv.exists_of_generate_eq_error
    (h : generate m o signature config previous = .error (.error e)) :
    ∃ t, m.stmts[e.stmt]? = some t := by
  rcases hinv.blame_of_generate hadmits ho h with
    ⟨bindings, ctx, st, p, -, hstarts, st', t, hreach, hstmt, -⟩ | ⟨s, -, hs, hroot⟩
  · obtain ⟨around, hplaced⟩ := hstarts.placed hinv ho
    exact ⟨t, hstmt ▸ hplaced.found_of_mem hreach.mem⟩
  · rcases hroot with ⟨hstmt, -⟩ | ⟨⟨ty, offset, hkind⟩, -⟩
    · exact ⟨s, hstmt ▸ hs⟩
    · obtain ⟨t, ht, -⟩ := Option.map_eq_some_iff.1 hkind
      exact ⟨t, ht⟩

/-- **The generator misses operands of the offload only**, without a value or walked later. -/
theorem Inv.missing_of_generate (hself : m.SelfContained o)
    (h : generate m o signature config previous = .error (.error (.crossOffloadReference i x))) :
    m.NestedIn o.stmts i ∧ (∃ t, m.stmts[i]? = some t ∧ x ∈ t.kind.operands) ∧
      m.NestedIn o.stmts x ∧
      ((∃ kind, m.kind? x = some kind ∧ kind.yields = false) ∨ ¬ [x, i].Sublist m.walk) := by
  rcases hinv.blame_of_generate hadmits ho h with
    ⟨bindings, ctx, st, p, hmodule, hstarts, st', t, hreach, hstmt, hforeign⟩ |
    ⟨s, hstmts, hs, hroot⟩
  · obtain ⟨hx, hlacks⟩ := hforeign x rfl
    obtain ⟨around, hplaced⟩ := hstarts.placed hinv ho
    have ht : m.stmts[t.id]? = some t := hplaced.found_of_mem hreach.mem
    have hi : m.NestedIn o.stmts t.id :=
      hinv.nestedIn_of_mem_outlineOf ho (hstarts.sublist.subset hreach.mem)
    have hxin : m.NestedIn o.stmts x := by
      rcases hself t.id hi t ht x hx with hin | ⟨c, hc⟩ | hbound
      · exact hin
      · exact absurd (hmodule ▸ hc) (hlacks.notConst c)
      · exact absurd hbound (hinv.not_isLoadedBound ho rfl hstarts hreach.mem)
    obtain rfl : i = t.id := hstmt
    refine ⟨hi, ⟨t, ht, hx⟩, hxin, ?_⟩
    by_contra hnot
    obtain ⟨hyields, hbefore⟩ := not_or.1 hnot
    rw [not_not] at hbefore
    have hyes (u : Stmt) (hu : u ∈ (m.outlineOf m.outline o.stmts).stmts) (hux : u.id = x) :
        u.kind.yields = true := by
      have hfound : m.stmts[u.id]? = some u := (hinv.placed_offload ho).found_of_mem hu
      by_contra hno
      exact hyields ⟨u.kind, by rw [← hux, kind?, hfound, Option.map_some], by simpa using hno⟩
    -- The operand is walked like its reader, since the root yields no value.
    have hxp : x ∈ p.ids := by
      obtain ⟨u, hu, hux⟩ := mem_map.1 ((hinv.mem_offload_ids ho).2 hxin)
      rcases hstarts.mem_or_root hu with hup | ⟨-, -, hblocks⟩
      · exact hux ▸ mem_map_of_mem hup
      · have hno := Kind.yields_of_childBlocks hblocks
        rw [hyes u hu hux] at hno
        cases hno
    have hpair : [x, t.id].Sublist p.ids :=
      pair_sublist_of_sublist hinv.nodup_walk
        ((hstarts.sublist.map Stmt.id).trans (hinv.offload_sublist_walk ho)) hxp
        (mem_map_of_mem hreach.mem) hbefore
    have hknown := hreach.known hstarts.owned hplaced.nodup
      (fun u hu => hyes u (hstarts.sublist.subset hu)) hpair
    rw [hlacks.lookup] at hknown
    cases hknown
  · exfalso
    rcases hroot with ⟨hstmt, hforeign⟩ | ⟨-, hnone⟩
    · obtain ⟨hx, hconst, hload⟩ := hforeign x rfl
      have hi : m.NestedIn o.stmts s.id := ⟨s.id, by simp [hstmts], .inl rfl⟩
      rcases hself s.id hi s hs x hx with hin | ⟨c, hc⟩ | ⟨-, -, -, ptr, -, -, -, hptr, -⟩
      · exact hinv.not_nestedIn_operand ho hstmts hs hx hin
      · exact hconst c hc
      · exact hload ptr hptr
    · cases hnone

end Generate

/-- **Every error of the compiler is about a statement that is there.** -/
theorem Inv.exists_of_compile_eq_error (hinv : m.Inv)
    (hadmits : ∀ (i : Nat) (t : Stmt), m.stmts[i]? = some t → m.Admits t.block t.kind)
    (h : compile m signature config = .error (.error e)) : ∃ t, m.stmts[e.stmt]? = some t := by
  rcases compile_eq_error h with h | ⟨-, o, ho, previous, -, h⟩
  · obtain ⟨before, o, after, i, x, -, -, hfirst, he⟩ := hinv.partition_eq_error.1 h
    cases he
    obtain ⟨-, -, t, -, -, ht, -⟩ := hfirst
    exact ⟨t, ht⟩
  · exact hinv.exists_of_generate_eq_error hadmits ho h

end Module

namespace Session

variable {actions : List Action} {s : Session} {i x : StmtId}

/-- **When an operand is said to be foreign.**  If compiling a finished module ends with the error
that statement `i` reads `x` from another offload, then `i` belongs to one offload, and `x` is an
operand of `i`.  Either the partition failed with this error, and `x` is not in that offload; or the
partition succeeded and `x` is in that offload, but it yields no value or is walked after `i`. -/
theorem foreign_operand_cases (hrun : Session.run {} actions = .ok s)
    (hfinish : s.builder.finish = .ok m)
    (h : compile m signature config = .error (.error (.crossOffloadReference i x))) :
    ∃ o ∈ m.groups, (∀ q ∈ m.groups, m.NestedIn q.stmts i ↔ q = o) ∧
      (∃ t, m.stmts[i]? = some t ∧ x ∈ t.kind.operands) ∧
      (m.partition = .error (.error (.crossOffloadReference i x)) ∧ ¬ m.NestedIn o.stmts x ∨
        m.partition = .ok m.groups ∧ m.NestedIn o.stmts x ∧
          ((∃ kind, m.kind? x = some kind ∧ kind.yields = false) ∨ ¬ [x, i].Sublist m.walk)) := by
  obtain ⟨hinv, hadmits⟩ := inv_of_finish hrun hfinish
  have honly {o : Offload} (ho : o ∈ m.groups) (hi : m.NestedIn o.stmts i) :
      ∀ q ∈ m.groups, m.NestedIn q.stmts i ↔ q = o :=
    fun q hq => ⟨fun hiq => hinv.group_unique hq ho hiq hi, fun heq => heq ▸ hi⟩
  rcases compile_eq_error h with hpartition | ⟨hpartition, o, ho, previous, -, hgenerate⟩
  · obtain ⟨before, o, after, j, y, hgroups, -, hfirst, he⟩ := hinv.partition_eq_error.1 hpartition
    cases he
    have ho : o ∈ m.groups := by simp [hgroups]
    obtain ⟨hi, -, t, pre, post, ht, hops, -, hforeign⟩ := hfirst
    exact ⟨o, ho, honly ho hi, ⟨t, ht, by simp [hops]⟩,
      .inl ⟨hpartition, fun hin => hforeign (.inl hin)⟩⟩
  · have hself := (hinv.partition_eq_ok.1 hpartition).2 o ho
    obtain ⟨hi, hop, hx, hwhy⟩ := hinv.missing_of_generate hadmits ho hself hgenerate
    exact ⟨o, ho, honly ho hi, hop, .inr ⟨hpartition, hx, hwhy⟩⟩

/-- The branch is blamed for a foreign read. -/
theorem foreign_operand_cases_leaking :
    ∃ s m, Session.run {} leaking = .ok s ∧ s.builder.finish = .ok m ∧
      compile m ⟨4, 0⟩ {} = .error (.error (.crossOffloadReference 8 0)) ∧
      ∃ o ∈ m.groups, m.NestedIn o.stmts 8 ∧ ¬ m.NestedIn o.stmts 0 := by
  have hrun : ∃ s m, Session.run {} leaking = .ok s ∧ s.builder.finish = .ok m ∧
      compile m ⟨4, 0⟩ {} = .error (.error (.crossOffloadReference 8 0)) ∧
      m.partition = .error (.error (.crossOffloadReference 8 0)) := ⟨_, _, rfl, rfl, rfl, rfl⟩
  obtain ⟨s, m, hrun, hfinish, hcompile, hpartition⟩ := hrun
  obtain ⟨o, ho, honly, -, ⟨-, hforeign⟩ | ⟨hok, -⟩⟩ := foreign_operand_cases hrun hfinish hcompile
  · exact ⟨s, m, hrun, hfinish, hcompile, o, ho, (honly o ho).2 rfl, hforeign⟩
  · rw [hpartition] at hok
    cases hok

/-- A store is negated, which yields no value. -/
def valueless : List Action :=
  [.create (.localVar .i32), .create (.const (.i32 1)), .create (.localStore 0 1),
    .create (.unary .neg 2)]

/-- **An operand of the same offload is said to be foreign**: walked later, or without a value. -/
theorem foreign_operand_at_home :
    (∃ s m, Session.run {} deferred = .ok s ∧ s.builder.finish = .ok m ∧
      m.partition = .ok [⟨.serial, [1, 2]⟩] ∧
      compile m ⟨4, 0⟩ {} = .error (.error (.crossOffloadReference 3 2)) ∧
      m.NestedIn [1, 2] 3 ∧ m.NestedIn [1, 2] 2) ∧
    ∃ s m, Session.run {} valueless = .ok s ∧ s.builder.finish = .ok m ∧
      m.partition = .ok [⟨.serial, [0, 2, 3]⟩] ∧
      compile m {} {} = .error (.error (.crossOffloadReference 3 2)) ∧
      m.NestedIn [0, 2, 3] 3 ∧ m.NestedIn [0, 2, 3] 2 :=
  ⟨⟨_, _, rfl, rfl, rfl, rfl,
      ⟨1, by decide, .inr ⟨_, _, 1, rfl, by decide, rfl, .refl⟩⟩, ⟨2, by decide, .inl rfl⟩⟩,
    _, _, rfl, rfl, rfl, rfl, ⟨3, by decide, .inl rfl⟩, ⟨2, by decide, .inl rfl⟩⟩

end Session

end WgslKernel
