import WgslKernel.Proofs.Buffers.Bounds
import WgslKernel.Proofs.Dispatch.Traces

/-!
# Loop bounds that are loaded from temporaries

The bound of a parallel loop may be a load that an earlier offload made.  The loop does not get the
value of that load: its shader reads the word of the temporary again when it is dispatched, and
finds the same unless a store or an atomic update of the temporary was executed in between.
-/

namespace WgslKernel

open List

/-- The place that a statement writes, if that can be a temporary. -/
def Kind.written? : Kind → Option StmtId
  | temporaryStore ptr _ | atomic _ ptr _ | atomicStore ptr _ => some ptr
  | _ => none

/-- Statement `t` is a store or an atomic update of the temporary at a byte offset. -/
def Module.Writes (m : Module) (t : Stmt) (offset : Nat) : Prop :=
  ∃ ptr ty, t.kind.written? = some ptr ∧ m.kind? ptr = some (.temporary ty offset)

namespace Codegen

variable {ctx : Context} {st st' : State} {values : Values} {s : Stmt} {l : Lowering} {o : Outline}
  {code : Code} {line : Line} {e : Expr} {k : Nat}

/-! ## Lines that write temporaries -/

/-- An operand changes nothing. -/
theorem Operand.updates (h : Operand e) : e.updates = [] :=
  subset_nil.1 (h.accesses ▸ e.updates_subset)

/-- Loads write nothing. -/
theorem Lowers.writes_load (h : Lowers ctx values s l) (hvalues : values.Entries (Slotted ctx))
    (hload : (∃ ptr, s.kind = .temporaryLoad ptr) ∨ ∃ ptr, s.kind = .atomicLoad ptr)
    (hline : line ∈ l.code.lines) : line.writes = [] := by
  cases h with
  | @temporaryLoad ptr slot type hkind hslot =>
    have hslot := (hvalues.operand (temporarySlot_eq_ok hslot)).updates
    obtain rfl := mem_singleton.1 hline
    cases hty : slot.type.prim <;>
      simp [Line.writes, fromWord, Expr.bitcast, Expr.word, Expr.updates, Expr.updatesOf,
        Expr.addressed, hslot]
  | @atomicLoad ptr target _ hkind htarget =>
    obtain ⟨r, v, hword, hv, -⟩ := addressed_atomic hvalues (by rw [hkind]; rfl) htarget
    obtain rfl := mem_singleton.1 hline
    cases hty : target.prim <;>
      simp [Line.writes, fromWord, Expr.bitcast, Expr.func, Expr.word, Expr.updates, Expr.updatesOf,
        Expr.addressed, hword, hv.updates]
  | _ =>
    rw [‹s.kind = _›] at hload
    rcases hload with ⟨ptr, hptr⟩ | ⟨ptr, hptr⟩ <;> cases hptr

/-- **A line that writes a temporary stems from a statement that does.** -/
theorem Lowers.writes (h : Lowers ctx values s l) (hvalues : values.Entries (Slotted ctx))
    (hline : line ∈ l.code.lines) (hk : line.MayWrite k) : ctx.module.Writes s (4 * k) := by
  obtain ⟨⟨r, i⟩, ha, hr, hconst⟩ := hk
  have haccess := Code.mem_accesses.2 ⟨line, hline, line.writes_subset ha⟩
  obtain ⟨j, rfl, haddressed⟩ := h.addressed hvalues haccess (Resource.isBlock_of_isTemporaries hr)
  obtain rfl := hconst j rfl
  cases haddressed with
  | @temporary _ ptr ty _ _ htarget hkind _ =>
    refine ⟨ptr, ty, ?_, hkind⟩
    cases hs : s.kind with
    | temporaryLoad p =>
      rw [h.writes_load hvalues (.inl ⟨p, hs⟩) hline] at ha
      cases ha
    | atomicLoad p =>
      rw [h.writes_load hvalues (.inr ⟨p, hs⟩) hline] at ha
      cases ha
    | _ =>
      rw [hs] at htarget
      exact htarget
  | arg => cases hr
  | ret => cases hr

/-- A line that writes stems from a writer. -/
theorem Walks.writer {T : Stmt → Prop} (h : Walks ctx st o st' code) (hT : ∀ s ∈ o.stmts, T s)
    (hfound : ∀ s, T s → ctx.module.stmts[s.id]? = some s)
    (hst : st.values.Entries (Slotted ctx)) (hline : line ∈ code.lines) (hk : line.MayWrite k) :
    ∃ t, T t ∧ ctx.module.Writes t (4 * k) := by
  rcases h.stems hT hfound hst hline with ⟨t, ht, values, l, hvalues, hl, hline, -⟩ | hnone
  · exact ⟨t, ht, hl.writes hvalues hline hk⟩
  · obtain ⟨a, ha, -⟩ := hk
    have hmem := line.writes_subset ha
    rw [hnone] at hmem
    cases hmem

/-! ## Lines around a walk -/

theorem GridBounds.updates {root : StmtId} {bound : RangeBound} {b : GridBound}
    (h : GridBounds ctx root bound b) : b.stop.updates = [] := by
  cases h <;> rfl

theorem gridPrologue_writes {config : Config} {stop : Expr} (hstop : stop.updates = [])
    (hline : line ∈ gridPrologue config stop) : line.writes = [] := by
  simp only [gridPrologue, mem_cons, not_mem_nil, or_false] at hline
  rcases hline with rfl | rfl
  · rfl
  · exact hstop

theorem seedLines_writes (hline : line ∈ seedLines ctx) : line.writes = [] := by
  simp only [seedLines, mem_cons, not_mem_nil, or_false] at hline
  rcases hline with rfl | rfl | rfl | rfl | rfl
  · cases ctx.stage <;> rfl
  · rfl
  · rfl
  · rfl
  · rfl

/-- **A line of a dispatch that writes a temporary stems from a statement that does.** -/
theorem writer_of_trace {m : Module} {off : Offload} {signature : Signature} {config : Config}
    {previous : Option Task} {p : Program} {ls : List Line} (hinv : m.Inv) (ho : off ∈ m.groups)
    (hp : program m off signature config previous = .ok p) (htrace : p.Trace ls) (hline : line ∈ ls)
    (hk : line.MayWrite k) :
    ∃ t, m.stmts[t.id]? = some t ∧ m.NestedIn off.stmts t.id ∧ m.Writes t (4 * k) := by
  have hwrites : line.writes ≠ [] := by
    obtain ⟨a, ha, -⟩ := hk
    exact ne_nil_of_mem ha
  obtain ⟨bindings, d, hd, rfl⟩ := program_eq_ok hp
  have hinv' : (contextOf m off signature config previous).module.Inv := hinv
  obtain ⟨grid, roots, inner, around, start, code, hdraft⟩ :=
    drafted_of_draft hinv' ho rfl rfl hd
  have hcode (hline : line ∈ code.lines) :
      ∃ t, m.stmts[t.id]? = some t ∧ m.NestedIn off.stmts t.id ∧ m.Writes t (4 * k) := by
    have hstart : start.values.Entries
        (Slotted { contextOf m off signature config previous with gridLoop := grid }) := by
      rw [hdraft.values]
      exact entries_nil
    obtain ⟨t, ht, hwriter⟩ := hdraft.walks.writer (fun s hs => hs)
      (fun s hs => hdraft.placed.found_of_mem hs) hstart hline hk
    refine ⟨t, hdraft.placed.found_of_mem ht, hinv.nestedIn_of_mem_outlineOf ho ?_, hwriter⟩
    have hmem := mem_append_right roots ht
    rw [← hdraft.stmts] at hmem
    exact hmem
  have hseeding : line ∉ (if d.state.random then
      seedLines (contextOf m off signature config previous) else []) := by
    intro hmem
    split at hmem
    · exact hwrites (seedLines_writes hmem)
    · cases hmem
  have hline := htrace.mem_lines hline
  simp only [assemble, Code.lines_ofLines, mem_append, hseeding, or_false] at hline
  cases hdraft.frame with
  | bare hprologue hbody =>
    rw [hprologue, hbody] at hline
    exact hcode (hline.resolve_left not_mem_nil)
  | @grid root stop _ hprologue hbody =>
    obtain ⟨hkind, hstmts⟩ := (hdraft.isGrid root).1 rfl
    obtain ⟨bound, -, -, b, -, hbound, rfl, -⟩ := draft_stop hkind hstmts hd hprologue
    rw [hprologue, hbody] at hline
    rcases hline with hline | hline
    · exact absurd (gridPrologue_writes (hbound.updates) hline) hwrites
    · simp only [Code.lines, append_nil, mem_cons] at hline
      rcases hline with rfl | rfl | rfl | hline
      · exact absurd rfl hwrites
      · exact absurd rfl hwrites
      · exact absurd rfl hwrites
      · exact hcode hline

/-! ## The load -/

theorem walkTop_append {xs ys : List StmtId} (h : walkTop ctx st (xs ++ ys) = .ok (st', code)) :
    ∃ st₁ c d, walkTop ctx st xs = .ok (st₁, c) ∧ walkTop ctx st₁ ys = .ok (st', d) ∧
      code = c ++ d := by
  induction xs generalizing st code with
  | nil => exact ⟨st, .done, code, rfl, h, rfl⟩
  | cons x xs ih =>
    obtain ⟨o, ho, h⟩ := bind_eq_ok.1 h
    obtain ⟨⟨st₁, c⟩, hwalk, h⟩ := bind_eq_ok.1 h
    obtain ⟨⟨st₂, tail⟩, htail, h⟩ := bind_eq_ok.1 h
    cases h
    obtain ⟨st₃, c', d, hxs, hys, rfl⟩ := ih htail
    refine ⟨st₃, c ++ c', d, ?_, hys, (Code.append_assoc _ _ _).symm⟩
    exact bind_eq_ok.2 ⟨o, ho, bind_eq_ok.2 ⟨_, hwalk, bind_eq_ok.2 ⟨_, hxs, rfl⟩⟩⟩

/-- What the load of an integer is lowered to. -/
theorem Lowers.load_eq {ptr : StmtId} (h : Lowers ctx values s l)
    (hvalues : values.Entries (Slotted ctx)) (hkind : s.kind = .temporaryLoad ptr)
    (hptr : ctx.module.kind? ptr = some (.temporary .i32 (4 * k))) :
    l.code = .line (.load (.temp s.id) k) .done := by
  cases h with
  | temporaryLoad hk hslot htype =>
    rw [hk] at hkind
    cases hkind
    obtain ⟨j, rfl, hj, -⟩ := hvalues.temporary hptr (temporarySlot_eq_ok hslot)
    obtain rfl : k = j := by omega
    cases htype
    rfl
  | _ =>
    rw [‹s.kind = _›] at hkind
    cases hkind

/-- The code of a serial offload around one of its loads. -/
theorem walkTop_load {xs ys : List StmtId} {n ptr : StmtId} (hinv : ctx.module.Inv)
    (hst : st.values.Entries (Slotted ctx))
    (hload : ctx.module.kind? n = some (.temporaryLoad ptr))
    (hptr : ctx.module.kind? ptr = some (.temporary .i32 (4 * k)))
    (h : walkTop ctx st (xs ++ n :: ys) = .ok (st', code)) :
    ∃ before after, code = before ++ .line (.load (.temp n) k) after ∧
      ∀ line ∈ after.lines, ∀ j, line.MayWrite j → ∃ t, ctx.module.stmts[t.id]? = some t ∧
        t ∈ (ctx.module.outlineOf ctx.module.outline ys).stmts ∧ ctx.module.Writes t (4 * j) := by
  have hfound {ids : List StmtId} (t : Stmt)
      (ht : t ∈ (ctx.module.outlineOf ctx.module.outline ids).stmts) :
      ctx.module.stmts[t.id]? = some t := by
    obtain ⟨i, hi⟩ :=
      Module.found_of_mem_outlineOf (fun b t ht => Module.found_of_mem_outline ht) ht
    rwa [hinv.id_eq hi]
  obtain ⟨st₁, before, d, hxs, hrest, rfl⟩ := walkTop_append h
  obtain ⟨o, ho, hrest⟩ := bind_eq_ok.1 hrest
  obtain ⟨⟨st₂, c⟩, hwalk, hrest⟩ := bind_eq_ok.1 hrest
  obtain ⟨⟨st₃, after⟩, hys, hrest⟩ := bind_eq_ok.1 hrest
  cases hrest
  obtain ⟨s, hs, ho⟩ := bind_eq_ok.1 (orFault_eq_ok.1 ho)
  cases ho
  have hs := Module.stmt_eq_ok.1 hs
  obtain rfl := hinv.id_eq hs
  have hkind : s.kind = .temporaryLoad ptr := by
    rw [Module.kind?, hs, Option.map_some] at hload
    exact Option.some.inj hload
  have hst₁ := (walks_of_walkTop hxs).entries (yields_slotted hfound) hst
  have houtline : ctx.module.outlineOf ctx.module.outline [s.id] = .cons s .nil .nil .nil := by
    rw [Module.outlineOf_cons hs]
    simp [Module.below, hkind, Kind.childBlocks, Module.outlineOf]
  rw [houtline] at hwalk
  cases walks_of_walk hwalk with
  | branch hk | loop hk | count hk =>
    rw [hk] at hkind
    cases hkind
  | leaf hblocks hlower happly hnil =>
    have hl := lowers_of_lower hblocks hlower
    cases hnil
    refine ⟨before, after, ?_, fun line hline j hj => ?_⟩
    · rw [hl.load_eq hst₁ hkind hptr]
      rfl
    · have hst₂ := apply_entries hst₁ (fun v hv => (yields_slotted (o := .cons s .nil .nil .nil)
        (by simpa [Outline.stmts] using hs)) s (by simp [Outline.stmts]) _ _ v hl hv) happly
      obtain ⟨t, ht, hwriter⟩ := (walks_of_walkTop hys).writer (fun t ht => ht) hfound hst₂ hline hj
      exact ⟨t, hfound t ht, ht, hwriter⟩

section Offloads

variable {m : Module} {signature : Signature} {config : Config} {previous : Option Task}
  {p : Program} {n ptr root : StmtId} {xs ys : List StmtId}

/-- **A serial offload executes each of its loads**, ahead of what stands behind it. -/
theorem loaded_of_trace {ls : List Line} (hinv : m.Inv)
    (hload : m.kind? n = some (.temporaryLoad ptr))
    (hptr : m.kind? ptr = some (.temporary .i32 (4 * k)))
    (hp : program m ⟨.serial, xs ++ n :: ys⟩ signature config previous = .ok p)
    (htrace : p.Trace ls) :
    ∃ before after, ls = before ++ .load (.temp n) k :: after ∧
      ∀ line ∈ after, ∀ j, line.MayWrite j → ∃ t, m.stmts[t.id]? = some t ∧
        t ∈ (m.outlineOf m.outline ys).stmts ∧ m.Writes t (4 * j) := by
  obtain ⟨bindings, d, hd, rfl⟩ := program_eq_ok hp
  obtain ⟨⟨st, code⟩, hwalk, hd⟩ := bind_eq_ok.1 hd
  cases hd
  obtain ⟨c₁, c₂, rfl, hwriters⟩ := walkTop_load hinv entries_nil hload hptr hwalk
  obtain ⟨threads, hone, hpaths, hls⟩ := htrace
  obtain ⟨t, rfl⟩ := length_eq_one_iff.1 (hone rfl)
  obtain rfl := hls.eq_of_singleton
  have hpath := hpaths ls mem_cons_self
  simp only [assemble, Code.paths_append] at hpath
  obtain ⟨a, -, _, hbody, rfl⟩ := Language.mem_mul.1 hpath
  obtain ⟨b, -, _, hrest, rfl⟩ := Language.mem_mul.1 hbody
  obtain ⟨l, hl, c, hc, rfl⟩ := Language.mem_mul.1 (hrest.resolve_right (Set.notMem_empty _))
  obtain rfl : l = [.load (.temp n) k] := hl
  refine ⟨a ++ b, c, by simp, fun line hline => hwriters line ?_⟩
  exact Code.madeOf_paths (List.Subset.refl _) .next c hc hline

/-- A loop with a loaded bound names the word of the temporary as its end, before all else. -/
theorem prologue_of_loadedBound {serial : Bool} {body : BlockId}
    (hbound : m.kind? root = some (.rangeFor (.value n) serial body))
    (hload : m.kind? n = some (.temporaryLoad ptr))
    (hp : program m ⟨.rangeFor, [root]⟩ signature config previous = .ok p) :
    ∃ k : Nat, m.kind? ptr = some (.temporary .i32 (4 * k)) ∧ ∃ rest,
      p.shader.prologue.lines =
        gridPrologue config (.word .globalTmps (.lit (.abstract k))) ++ rest := by
  obtain ⟨bindings, d, hd, rfl⟩ := program_eq_ok hp
  obtain ⟨s, bound, serial', body', b, st₀, groups, st', code, hs, hrange, hb, -, -, -, rfl⟩ :=
    draft_rangeFor rfl rfl hd
  have hkind : m.kind? root = some s.kind := by
    rw [Module.kind?]
    exact Option.map_eq_some_iff.2 ⟨s, hs, rfl⟩
  rw [hbound, hrange] at hkind
  cases hkind
  cases hb with
  | const hx => cases hload.symm.trans hx
  | @loaded _ _ _ k hload' hptr hword =>
    cases hload.symm.trans hload'
    obtain ⟨rfl, -⟩ := temporaryWord_eq_ok hword
    exact ⟨k, hptr, _, Code.lines_ofLines _⟩

end Offloads

/-! ## Dispatches one after another -/

/-- The lines of the dispatches of some offloads, one offload after another. -/
inductive Dispatches (m : Module) (signature : Signature) (config : Config) :
    List Offload → List Line → Prop where
  | nil : Dispatches m signature config [] []
  | cons {off : Offload} {offs : List Offload} {previous : Option Task} {p : Program}
    {t ls : List Line} (program : program m off signature config previous = .ok p)
    (trace : p.Trace t) (rest : Dispatches m signature config offs ls) :
    Dispatches m signature config (off :: offs) (t ++ ls)

section Dispatches

variable {m : Module} {signature : Signature} {config : Config} {offs offs' : List Offload}
  {ls : List Line}

theorem Dispatches.split (h : Dispatches m signature config (offs ++ offs') ls) :
    ∃ ls₁ ls₂, ls = ls₁ ++ ls₂ ∧ Dispatches m signature config offs ls₁ ∧
      Dispatches m signature config offs' ls₂ := by
  induction offs generalizing ls with
  | nil => exact ⟨[], ls, rfl, .nil, h⟩
  | cons off offs ih =>
    cases h with
    | @cons _ _ _ _ t _ hp htrace hrest =>
      obtain ⟨ls₁, ls₂, rfl, h₁, h₂⟩ := ih hrest
      exact ⟨t ++ ls₁, ls₂, (List.append_assoc _ _ _).symm, .cons hp htrace h₁, h₂⟩

/-- Who writes a word in a dispatch. -/
theorem Dispatches.writer (h : Dispatches m signature config offs ls) (hinv : m.Inv)
    (hoffs : ∀ off ∈ offs, off ∈ m.groups) (hline : line ∈ ls) (hk : line.MayWrite k) :
    ∃ t, m.stmts[t.id]? = some t ∧ m.Writes t (4 * k) ∧
      ∃ off ∈ offs, m.NestedIn off.stmts t.id := by
  induction h with
  | nil => cases hline
  | cons hp htrace _ ih =>
    obtain ⟨hoff, hoffs⟩ := forall_mem_cons.1 hoffs
    rcases mem_append.1 hline with hline | hline
    · obtain ⟨t, ht, hnested, hwriter⟩ := writer_of_trace hinv hoff hp htrace hline hk
      exact ⟨t, ht, hwriter, _, mem_cons_self, hnested⟩
    · obtain ⟨t, ht, hwriter, off, hoff, hnested⟩ := ih hoffs hline
      exact ⟨t, ht, hwriter, off, mem_cons_of_mem _ hoff, hnested⟩

end Dispatches

/-- Dispatches of some offloads on integers, one after another. -/
inductive Runs (m : Module) (signature : Signature) (config : Config) (fuel : Nat) :
    List Offload → Memory → Memory → Prop where
  | nil (mem : Memory) : Runs m signature config fuel [] mem mem
  | cons {off : Offload} {offs : List Offload} {previous : Option Task} {p : Program}
    {mem mem₁ mem' : Memory} (program : program m off signature config previous = .ok p)
    (run : p.run fuel mem = .done mem₁) (rest : Runs m signature config fuel offs mem₁ mem') :
    Runs m signature config fuel (off :: offs) mem mem'

/-- What runs on integers has a trace that is executed. -/
theorem Runs.dispatches {m : Module} {signature : Signature} {config : Config} {fuel : Nat}
    {offs : List Offload} {mem mem' : Memory} (h : Runs m signature config fuel offs mem mem') :
    ∃ ls, Dispatches m signature config offs ls ∧
      Executes ls mem.temporaries mem'.temporaries := by
  induction h with
  | nil mem => exact ⟨[], .nil, .nil _⟩
  | cons hp hrun _ ih =>
    obtain ⟨t, htrace, hfirst⟩ := Program.trace_of_run hrun
    obtain ⟨ls, hdispatches, hrest⟩ := ih
    exact ⟨t ++ ls, .cons hp htrace hdispatches, hfirst.append hrest⟩

end Codegen

namespace Module

variable {m : Module} {n root ptr : StmtId}

theorem Inv.nestedIn_of_mem (h : m.Inv) {ids : List StmtId} {t : Stmt}
    (ht : t ∈ (m.outlineOf m.outline ids).stmts) : m.NestedIn ids t.id := by
  obtain ⟨i, hi, s, hs, hfound⟩ := h.mem_outlineOf_ids (mem_map_of_mem ht)
  rcases hfound with heq | ⟨c, hc, hx⟩
  · exact ⟨i, hi, .inl heq⟩
  · obtain ⟨u, hu, henc⟩ := h.mem_outline_ids c hx
    exact ⟨i, hi, .inr ⟨s, u, c, hs, hc, hu, henc⟩⟩

/-- The load is in a serial offload ahead of the loop. -/
theorem Inv.groups_of_loadedBound (h : m.Inv) {body : BlockId}
    (hroot : ⟨.rangeFor, [root]⟩ ∈ m.groups)
    (hbound : m.kind? root = some (.rangeFor (.value n) false body))
    (hload : m.kind? n = some (.temporaryLoad ptr)) :
    ∃ first xs ys middle last, m.groups =
      first ++ ⟨.serial, xs ++ n :: ys⟩ :: (middle ++ ⟨.rangeFor, [root]⟩ :: last) := by
  obtain ⟨s, hs, hkind⟩ := Option.map_eq_some_iff.1 hbound
  obtain ⟨u, hu, hukind⟩ := Option.map_eq_some_iff.1 hload
  have hsroot := h.block_of_mem_groups hroot mem_cons_self hs
  obtain ⟨hlt, t, ht, henc⟩ := h.operands hs n (by rw [hkind]; exact mem_cons_self)
  cases hu.symm.trans ht
  have huroot : u.block = rootBlock := by
    rw [hsroot] at henc
    exact Nat.le_zero.1 (h.le_of_encloses henc)
  have hsplits := m.splits_groups
  have htop : n ∈ m.topLevel := by
    refine mem_filter.2 ⟨huroot ▸ h.mem_blockStmts_self hu, ?_⟩
    rw [hload]
    rfl
  rw [← hsplits.whole] at htop
  obtain ⟨g, hg, hng⟩ := mem_flatten.1 htop
  obtain ⟨o, ho, rfl⟩ := mem_map.1 hg
  obtain ⟨first, behind, hgroups⟩ := append_of_mem ho
  obtain ⟨xs, ys, hstmts⟩ := append_of_mem hng
  have hserial : o.kind = .serial := by
    rcases standalone_of_mem_groups ho with hserial | ⟨i, kind, hi, hkind, hstandalone⟩
    · exact hserial
    · rw [hi, mem_singleton] at hng
      rw [← hng, hload] at hkind
      cases hkind
      cases hstandalone
  obtain ⟨kind, stmts⟩ := o
  cases hserial
  cases hstmts
  -- The loop is behind the load, because the statements of the top level are in order.
  have hascending : (m.groups.map Offload.stmts).flatten.Pairwise (· < ·) := by
    rw [hsplits.whole]
    exact (h.wellFormed.ascending rootBlock).filter _
  rw [hgroups] at hroot hascending
  rcases mem_append.1 hroot with hroot | hroot
  · simp only [map_append, flatten_append, pairwise_append] at hascending
    have hlt' := hascending.2.2 root (mem_flatten.2 ⟨_, mem_map_of_mem hroot, by simp⟩) n
      (by simp)
    exact absurd hlt' (Nat.lt_asymm hlt)
  · rcases mem_cons.1 hroot with heq | hroot
    · cases heq
    · obtain ⟨middle, last, rfl⟩ := append_of_mem hroot
      exact ⟨first, xs, ys, middle, last, hgroups⟩

end Module

/-! ## The bound and the load -/

namespace Session

open Codegen

/-- **A loop reads its loaded bound again**: when it is dispatched, its shader reads the word of the
temporary, as the dispatches ahead of it have left it.  The load is executed in one of these.  The
loop reads what the load found there, unless a line was executed behind the load that writes the
word; it stems from a statement that stores to a temporary at this very offset or updates it
atomically, and that stands behind the load in its offload, or in an offload between the two.  Where
the dispatches have a meaning as programs on integers, their runs are among the executions this is
said of, and both loads give their name the word that is in memory. -/
theorem loadedBound_kept {actions : List Action} {s : Session} {m : Module} {signature : Signature}
    {config : Config} {kernel : Kernel} {root n ptr : StmtId} {body : BlockId}
    (hrun : Session.run {} actions = .ok s) (hfinish : s.builder.finish = .ok m)
    (hcompile : compile m signature config = .ok kernel) (hroot : ⟨.rangeFor, [root]⟩ ∈ m.groups)
    (hbound : m.kind? root = some (.rangeFor (.value n) false body))
    (hload : m.kind? n = some (.temporaryLoad ptr)) :
    ∃ k : Nat, m.kind? ptr = some (.temporary .i32 (4 * k)) ∧
      (∃ previous p, program m ⟨.rangeFor, [root]⟩ signature config previous = .ok p ∧
        p.task .rangeFor signature ∈ kernel.tasks ∧ ∃ count rest,
          p.shader.prologue.lines = count :: .load .rangeEnd k :: rest ∧ count.accesses = []) ∧
      (∀ name inv st flow st', (Line.load name k).exec inv st = .done (flow, st') →
        st'.locals.get? name = some ⟨name, false, .int (st.memory.temporaries k)⟩ ∧
          st'.memory = st.memory) ∧
      (∃ first xs ys middle last, m.groups =
        first ++ ⟨.serial, xs ++ n :: ys⟩ :: (middle ++ ⟨.rangeFor, [root]⟩ :: last)) ∧
      ∀ first xs ys middle last, m.groups =
          first ++ ⟨.serial, xs ++ n :: ys⟩ :: (middle ++ ⟨.rangeFor, [root]⟩ :: last) →
        (∀ fuel mem mem',
          Runs m signature config fuel (first ++ ⟨.serial, xs ++ n :: ys⟩ :: middle) mem mem' →
          ∃ ls, Dispatches m signature config (first ++ ⟨.serial, xs ++ n :: ys⟩ :: middle) ls ∧
            Executes ls mem.temporaries mem'.temporaries) ∧
        ∀ ls words words',
          Dispatches m signature config (first ++ ⟨.serial, xs ++ n :: ys⟩ :: middle) ls →
          Executes ls words words' → ∃ before loaded after,
            ls = before ++ .load (.temp n) k :: after ∧ Executes before words loaded ∧
            Executes after loaded words' ∧
            (words' k = loaded k ∨ ∃ line ∈ after, line.MayWrite k ∧
              ∃ t, m.stmts[t.id]? = some t ∧ m.Writes t (4 * k) ∧
                (m.NestedIn ys t.id ∨ ∃ off ∈ middle, m.NestedIn off.stmts t.id)) := by
  have hinv := (inv_of_finish hrun hfinish).1
  obtain ⟨-, htasks⟩ := compile_eq_ok hcompile
  obtain ⟨task, htask, previous, hgenerate⟩ := exists_of_mem_forall₂ htasks.flip hroot
  obtain ⟨p, hp, htaskEq⟩ := bind_eq_ok.1 hgenerate
  cases htaskEq
  obtain ⟨k, hptr, rest, hprologue⟩ := prologue_of_loadedBound hbound hload hp
  refine ⟨k, hptr, ⟨previous, p, hp, htask, _, rest, hprologue, rfl⟩,
    fun _ _ _ _ _ h => Line.load_exec h, hinv.groups_of_loadedBound hroot hbound hload, ?_⟩
  intro first xs ys middle last hgroups
  refine ⟨fun _ _ _ h => h.dispatches, fun ls words words' hdispatches hexec => ?_⟩
  obtain ⟨ls₁, ls₂, rfl, -, hdispatches⟩ := hdispatches.split
  cases hdispatches with
  | @cons _ _ _ _ t behind hserial htrace hmiddle =>
    obtain ⟨before, after, rfl, hafter⟩ := loaded_of_trace hinv hload hptr hserial htrace
    rw [show ls₁ ++ (before ++ .load (.temp n) k :: after ++ behind) =
      ls₁ ++ before ++ .load (.temp n) k :: (after ++ behind) by simp] at hexec ⊢
    obtain ⟨loaded, hbefore, hrest⟩ := hexec.split
    cases hrest with
    | @cons _ _ _ loaded' _ hacts hbehind =>
      -- The load itself changes nothing.
      have hsame : loaded' = loaded := by
        funext j
        refine hacts j ?_
        rintro ⟨a, ha, -⟩
        cases ha
      subst hsame
      refine ⟨_, loaded', _, rfl, hbefore, hbehind, ?_⟩
      by_cases hwritten : ∃ line ∈ after ++ behind, line.MayWrite k
      · obtain ⟨line, hline, hk⟩ := hwritten
        refine .inr ⟨line, hline, hk, ?_⟩
        rcases mem_append.1 hline with hline | hline
        · obtain ⟨t, ht, hnested, hwriter⟩ := hafter line hline k hk
          exact ⟨t, ht, hwriter, .inl (hinv.nestedIn_of_mem hnested)⟩
        · have hoffs : ∀ off ∈ middle, off ∈ m.groups := by
            intro off hoff
            rw [hgroups]
            simp [hoff]
          obtain ⟨t, ht, hwriter, hnested⟩ := hmiddle.writer hinv hoffs hline hk
          exact ⟨t, ht, hwriter, .inr hnested⟩
      · push Not at hwritten
        exact .inl (hbehind.keeps hwritten)

/-- A loop up to a number that is loaded behind its store. -/
def counted : List Action :=
  [.create (.temporary .i32 8), .create (.argLoad .i32 0), .create (.temporaryStore 0 1),
    .create (.temporaryLoad 0), .create (.rangeFor (.value 3) false)]

/-- The argument 5, and three temporaries. -/
def countedMemory : Memory := fun r =>
  if r = .args then [5] else if r = .globalTmps then [0, 0, 0] else []

/-- A run in which the bound is five. -/
theorem loadedBound_kept_counted : ∃ s m kernel mem' ls, Session.run {} counted = .ok s ∧
    s.builder.finish = .ok m ∧ compile m ⟨4, 0⟩ {} = .ok kernel ∧
      m.groups = [⟨.serial, [0, 1, 2, 3]⟩, ⟨.rangeFor, [4]⟩] ∧
      Runs m ⟨4, 0⟩ {} 0 [⟨.serial, [0, 1, 2, 3]⟩] countedMemory mem' ∧
      mem'.temporaries 2 = 5 ∧ Dispatches m ⟨4, 0⟩ {} [⟨.serial, [0, 1, 2, 3]⟩] ls ∧
      Executes ls countedMemory.temporaries mem'.temporaries ∧
      ∀ ls words words', Dispatches m ⟨4, 0⟩ {} [⟨.serial, [0, 1, 2, 3]⟩] ls →
        Executes ls words words' → ∃ before loaded after,
          ls = before ++ .load (.temp 3) 2 :: after ∧ Executes before words loaded ∧
          words' 2 = loaded 2 := by
  have hkernel : ∃ s m kernel body p, Session.run {} counted = .ok s ∧
      s.builder.finish = .ok m ∧ compile m ⟨4, 0⟩ {} = .ok kernel ∧
      m.groups = [⟨.serial, [0, 1, 2, 3]⟩, ⟨.rangeFor, [4]⟩] ∧
      m.kind? 4 = some (.rangeFor (.value 3) false body) ∧ m.kind? 3 = some (.temporaryLoad 0) ∧
      m.kind? 0 = some (.temporary .i32 8) ∧
      program m ⟨.serial, [0, 1, 2, 3]⟩ ⟨4, 0⟩ {} none = .ok p ∧
      (do return (← p.run 0 countedMemory).temporaries 2) = Run.done 5 :=
    ⟨_, _, _, _, _, rfl, rfl, rfl, rfl, rfl, rfl, rfl, rfl, by decide +kernel⟩
  obtain ⟨s, m, kernel, body, p, hrun, hfinish, hcompile, hgroups, hbound, hload, hptr, hp,
    hfive⟩ := hkernel
  obtain ⟨mem', hruns, hfive⟩ := Run.bind_eq_done.1 hfive
  have hfive : mem'.temporaries 2 = 5 := Run.done.inj hfive
  obtain ⟨k, hk, -, -, -, hkept⟩ :=
    loadedBound_kept hrun hfinish hcompile (by simp [hgroups]) hbound hload
  rw [hptr] at hk
  simp only [Option.some.injEq, Kind.temporary.injEq, true_and] at hk
  obtain rfl : k = 2 := by omega
  obtain ⟨htraced, hkept⟩ := hkept [] [0, 1, 2] [] [] [] hgroups
  have hfirst := Runs.cons hp hruns (.nil mem')
  obtain ⟨ls, hls, hexec⟩ := htraced 0 countedMemory mem' hfirst
  refine ⟨s, m, kernel, mem', ls, hrun, hfinish, hcompile, hgroups, hfirst, hfive, hls, hexec,
    fun ls words words' hls hexec => ?_⟩
  obtain ⟨before, loaded, after, hsplit, hbefore, -, hsame | ⟨-, -, -, t, -, -, hbetween⟩⟩ :=
    hkept ls words words' hls hexec
  · exact ⟨before, loaded, after, hsplit, hbefore, hsame⟩
  · rcases hbetween with ⟨i, hi, -⟩ | ⟨off, hoff, -⟩
    · cases hi
    · cases hoff

/-- A loop up to a number that is loaded ahead of a store to the same temporary. -/
def overwritten : List Action :=
  [.create (.temporary .i32 0), .create (.temporaryLoad 0), .create (.const (.i32 7)),
    .create (.temporaryStore 0 2), .create (.rangeFor (.value 1) false)]

/-- The load finds `3` and the loop reads `7`. -/
theorem loadedBound_overwritten : ∃ s m kernel body first second,
    Session.run {} overwritten = .ok s ∧ s.builder.finish = .ok m ∧
      compile m {} {} = .ok kernel ∧
      m.groups = [⟨.serial, [0, 1, 3]⟩, ⟨.rangeFor, [4]⟩] ∧
      m.kind? 4 = some (.rangeFor (.value 1) false body) ∧ m.kind? 1 = some (.temporaryLoad 0) ∧
      program m ⟨.serial, [0, 1, 3]⟩ {} {} none = .ok first ∧
      program m ⟨.rangeFor, [4]⟩ {} {} none = .ok second ∧
      kernel.tasks = [first.task .serial {}, second.task .rangeFor {}] ∧
      (do
        let left ← (first.shader.prologue ++ first.shader.body).exec ⟨0, 1⟩ 0
          ⟨[], fun r => if r = .globalTmps then [3] else []⟩
        let found ← second.shader.prologue.exec ⟨0, .ofNat second.numWorkgroups⟩ 0
          ⟨[], left.2.memory⟩
        return (left.2.locals.get? (.temp 1), found.2.locals.get? .rangeEnd)) =
      Run.done (some ⟨.temp 1, false, .int 3⟩, some ⟨.rangeEnd, false, .int 7⟩) :=
  ⟨_, _, _, _, _, _, rfl, rfl, rfl, rfl, rfl, rfl, rfl, rfl, rfl, by decide +kernel⟩

end Session

end WgslKernel
