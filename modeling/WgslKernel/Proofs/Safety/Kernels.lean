import Mathlib.Algebra.Group.Nat.Defs
import WgslKernel.Proofs.Bindings.Pairs
import WgslKernel.Proofs.Blame.Kernels

/-!
# Compiling a finished module

Compiling a finished module ends with a kernel or with an error about it, as long as there are slots
for the resources it uses.  A statement uses two resources at most, so slots run out only in a
module of more than `2 ^ 31` statements.
-/

namespace WgslKernel

open List

namespace Module

variable {m : Module} {o : Offload}

/-- What generation needs of a module. -/
def Operative (m : Module) : Prop :=
  ∀ (i : Nat) (s : Stmt), m.stmts[i]? = some s → m.Operable s.kind

/-- In a finished module operands are found. -/
theorem Inv.operative (h : m.Inv)
    (hadmits : ∀ (i : Nat) (s : Stmt), m.stmts[i]? = some s → m.Admits s.block s.kind) :
    m.Operative := by
  intro i s hs
  refine ⟨fun x hx => ?_, fun x index hkind => ?_⟩
  · obtain ⟨-, t, ht, -⟩ := h.operands hs x hx
    exact ⟨t.kind, by rw [kind?, ht]; rfl⟩
  · have := hadmits i s hs
    rw [hkind] at this
    exact this

/-! ## How many resources there are -/

/-- Offloads that share one numbering use more resources than there are slots. -/
def Overfull (m : Module) : Prop :=
  ∃ os, m.Linked os ∧ wordLimit < (os.flatMap m.uses).eraseDups.length

/-- A statement uses two resources at most; a loop whose bound takes one uses no other. -/
theorem Inv.length_uses_le (h : m.Inv) (ho : o ∈ m.groups) :
    (m.uses o).length ≤ 2 * (m.walked o).length := by
  have hwalked (ss : List Stmt) :
      (ss.flatMap fun s => m.resources s.kind).length ≤ 2 * ss.length := by
    induction ss with
    | nil => simp
    | cons s ss ih =>
      have := (m.resources_tidy s.kind).1
      rw [flatMap_cons, length_append, length_cons]
      omega
  by_cases hserial : o.kind = .serial
  · have hroot : o.root? = none := by rw [Offload.root?, hserial]
    rw [uses, hroot]
    exact hwalked (m.walked o)
  · obtain ⟨s, hs, hstmts, -, halone⟩ := Codegen.standalone_eq h ho hserial
    obtain ⟨b, hb⟩ : ∃ b, s.kind.childBlocks = [b] := by
      cases hkind : s.kind <;> simp_all [OffloadKind.standalone?, Kind.childBlocks]
    have hbound := (m.boundResources_tidy s.kind).1
    have hinner := hwalked (m.outline b).stmts
    rw [Codegen.uses_standalone hserial hs hstmts hb, Codegen.walked_standalone hs hstmts hb,
      length_append, length_cons]
    omega

/-- Statements are walked once, by one offload. -/
theorem Inv.length_walked_le (h : m.Inv) {os : List Offload} (hos : m.Linked os) :
    (os.flatMap m.walked).length ≤ m.stmts.size := by
  have hids (o : Offload) : (m.walked o).map Stmt.id = (m.outlineOf m.outline o.stmts).ids := rfl
  have hgroups : ∀ o ∈ os, o ∈ m.groups := by
    cases hos <;> simp_all
  have hnodup : ((os.flatMap m.walked).map Stmt.id).Nodup := by
    cases hos with
    | alone ho => simpa [hids] using (h.placed_offload ho).nodup
    | @pair v o hv ho hvertex hfragment =>
      have happart : List.Disjoint ((m.walked v).map Stmt.id) ((m.walked o).map Stmt.id) := by
        intro x hxv hxo
        have heq : v = o :=
          h.group_unique hv ho ((h.mem_offload_ids hv).1 hxv) ((h.mem_offload_ids ho).1 hxo)
        simp [heq, hfragment] at hvertex
      rw [flatMap_cons, flatMap_singleton, map_append]
      exact (h.placed_offload hv).nodup.append (h.placed_offload ho).nodup happart
  have hlt : (os.flatMap m.walked).map Stmt.id ⊆ List.range m.stmts.size := by
    intro x hx
    obtain ⟨s, hs, rfl⟩ := mem_map.1 hx
    obtain ⟨o, ho, hs⟩ := mem_flatMap.1 hs
    exact mem_range.2 (stmts_lt_nextId ((h.placed_offload (hgroups o ho)).found_of_mem hs))
  simpa using (hnodup.subperm hlt).length_le

/-- **Slots run out only in modules of more than `2 ^ 31` statements.** -/
theorem Inv.lt_size_of_overfull (h : m.Inv) (hfull : m.Overfull) : 2 ^ 31 < m.stmts.size := by
  obtain ⟨os, hos, hlt⟩ := hfull
  have huses : (os.flatMap m.uses).length ≤ 2 * (os.flatMap m.walked).length := by
    cases hos with
    | alone ho => simpa using h.length_uses_le ho
    | pair hv ho =>
      have := h.length_uses_le hv
      have := h.length_uses_le ho
      simp only [flatMap_cons, flatMap_nil, append_nil, length_append]
      omega
  have hwalked := h.length_walked_le hos
  have hle := length_eraseDups_le (os.flatMap m.uses)
  have hlimit : wordLimit = 2 * 2 ^ 31 := rfl
  omega

end Module

/-! ## Offloads -/

namespace Codegen

variable {ctx ctx' : Context} {values : Values} {st st₀ : State} {s t : Stmt} {l : Lowering}
  {o : Outline} {off : Offload} {vs : List Resource}

/-- A statement uses its resources. -/
theorem lower_resources (h : lower ctx values s = .ok l) :
    l.uses.map Use.resource ⊆ ctx.module.resources s.kind := by
  by_cases hblocks : s.kind.childBlocks = []
  · rw [(lowers_of_lower hblocks h).resources]
    exact List.Subset.refl _
  · cases hkind : s.kind with
    | branch | whileTrue | rangeFor =>
      simp only [lower, hkind] at h
      cases h
      exact nil_subset _
    | vertexFor | fragmentFor => simp [lower, hkind] at h
    | _ => exact absurd (by rw [hkind]; rfl) hblocks

/-- A walk starts with slots for what the bound of a parallel loop is read from. -/
theorem Starts.allotted (h : Starts ctx st off ctx' st₀ o) (hst : st.Allotted vs []) :
    ∃ rs, st₀.Allotted vs rs ∧ rs ⊆ ctx.module.uses off := by
  cases h with
  | serial | fragmentFor => exact ⟨[], hst, nil_subset _⟩
  | vertexFor => exact ⟨[], ⟨hst.resources, hst.table, hst.bound, hst.fits⟩, nil_subset _⟩
  | rangeFor hkind hstmts hs hroot hbound huses =>
    refine ⟨_, hst.foldlM huses, ?_⟩
    rw [uses_standalone (by simp [hkind]) hs hstmts (by rw [hroot]; rfl), hroot,
      ← (gridBounds_of_gridBound hbound).resources]
    exact subset_append_left _ _

theorem Starts.resources_subset (h : Starts ctx st off ctx' st₀ o) (ht : t ∈ o.stmts) :
    ctx.module.resources t.kind ⊆ ctx.module.uses off := by
  intro r hr
  exact mem_append_right _ (mem_flatMap.2 ⟨t, h.sublist.subset ht, hr⟩)

theorem exists_workgroups {config : Config} (hsize : 1 ≤ config.workgroupSize)
    (hmax : 1 ≤ config.maxWorkgroups) (hint : RangeHint) : ∃ n, workgroups config hint = .ok n := by
  have hcount (n : Nat) : ∃ k, orFault (config.workgroupsFor n) = .ok k := by
    rw [Config.workgroupsFor, if_neg (by omega), if_neg (by omega)]
    exact ⟨_, rfl⟩
  cases hint with
  | const n | fieldElements _ n => exact hcount n
  | dynamic _ => exact ⟨_, rfl⟩

theorem gridBound_ne_fault {s : Stmt} {bound : RangeBound} {serial : Bool} {body : BlockId}
    {f : Fault} (hop : ctx.module.Operative) (hs : ctx.module.stmts[s.id]? = some s)
    (hkind : s.kind = .rangeFor bound serial body) :
    gridBound ctx s.id bound ≠ .error (.fault f) := by
  intro hf
  have hoperands := (hop s.id s hs).operands
  cases boundFails_of_gridBound hf with
  | missing hx hbound =>
    rcases hbound with rfl | ⟨load, -, hload⟩
    · exact hx (hoperands _ (by simp [hkind, Kind.operands]))
    · obtain ⟨u, hu, hkind⟩ := Option.map_eq_some_iff.1 hload
      exact hx ((hop load u hu).operands _ (by simp [hkind, Kind.operands]))

end Codegen

open Codegen in
/-- **Generating an offload of a finished module breaks a contract only if slots run out.** -/
theorem generate_eq_fault {m : Module} {o : Offload} {signature : Signature} {config : Config}
    {previous : Option Task} {f : Fault} (hinv : m.Inv) (hop : m.Operative)
    (hsize : 1 ≤ config.workgroupSize) (hmax : 1 ≤ config.maxWorkgroups) (ho : o ∈ m.groups)
    (hfollows : Compile.Follows m signature config previous o)
    (h : generate m o signature config previous = .error (.fault f)) :
    f = .additionOverflow ∧ m.Overfull := by
  obtain ⟨first, vs, hlinked, hvs, -, hseed⟩ := hfollows.seed ho
  have hnodup : vs.Nodup := hvs ▸ nodup_eraseDups _
  have hfull {rs : List Resource} (hrs : rs ⊆ m.uses o)
      (hlt : wordLimit < (vs ++ rs).eraseDups.length) : m.Overfull := by
    refine ⟨first ++ [o], hlinked, Nat.lt_of_lt_of_le hlt (length_eraseDups_mono ?_)⟩
    rw [flatMap_append, flatMap_singleton]
    refine append_subset.2 ⟨fun r hr => ?_, fun r hr => mem_append_right _ (hrs hr)⟩
    rw [hvs, mem_eraseDups] at hr
    exact mem_append_left _ hr
  -- Uses fail only for want of a slot.
  have huses {st : State} {rs : List Resource} {uses : List Use} {f : Fault}
      (hst : st.Allotted vs rs) (hrs : rs ⊆ m.uses o) (hmore : uses.map Use.resource ⊆ m.uses o)
      (hf : uses.foldlM State.use st = .error f) : f = .additionOverflow ∧ m.Overfull := by
    rcases uses_allotted hst uses with ⟨st', hok, -⟩ | ⟨herror, hlt⟩
    · cases hok.symm.trans hf
    · cases herror.symm.trans hf
      exact ⟨rfl, hfull (append_subset.2 ⟨hrs, hmore⟩) hlt⟩
  have hbindings : BindingMap.ofBindings (seed previous) = .ok ⟨Binding.consecutive 0 vs⟩ := by
    rw [hseed, BindingMap.ofBindings_consecutive hnodup]
  rcases generate_eq_error h with ⟨_, hf, -⟩ | ⟨bindings, hb, hdraft⟩
  · cases hbindings.symm.trans hf
  cases hbindings.symm.trans hb
  have hstart := allotted_start hnodup
  cases draftFails_of_draft hinv ho rfl hdraft with
  | walk hstarts hwalk =>
    obtain ⟨st', t, hreach, hfails⟩ := failsAt_of_walk hwalk
    rename_i ctx' st₀ outline
    have hmodule : ctx'.module = m := by rw [hstarts.context_eq]; rfl
    obtain ⟨rs, hst', hrs⟩ :=
      hreach.keeps (P := fun st => ∃ rs, st.Allotted vs rs ∧ rs ⊆ m.uses o)
        (fun hs ⟨rs, hst, hrs⟩ hl happly => ⟨_, apply_allotted hst happly,
          append_subset.2 ⟨hrs, by
            rw [hl.resources, hmodule]
            exact hstarts.resources_subset hs⟩⟩)
        (hstarts.allotted hstart)
    rcases hfails.grounds with hgrounds | ⟨l, f', hlower, hf', he⟩
    · obtain ⟨around, hplaced⟩ := hstarts.placed hinv ho
      have ht : m.stmts[t.id]? = some t := hplaced.found_of_mem hreach.mem
      exact absurd (hmodule ▸ hop t.id t ht) hgrounds
    · cases he
      refine huses hst' hrs (List.Subset.trans (lower_resources hlower) ?_) hf'
      rw [hmodule]
      exact hstarts.resources_subset hreach.mem
  | bound _ hs hkind hbound => exact absurd hbound (gridBound_ne_fault hop hs hkind)
  | slots hoff hstmts hs hkind hb hf he =>
    cases he
    refine huses hstart (nil_subset _) ?_ hf
    rw [(gridBounds_of_gridBound hb).resources,
      uses_standalone (m := m) (by simp [hoff]) hs hstmts (by rw [hkind]; rfl), hkind]
    exact subset_append_left _ _
  | workgroups hn =>
    obtain ⟨n, hok⟩ := exists_workgroups hsize hmax _
    cases hok.symm.trans hn
  | position _ _ _ hmember =>
    obtain ⟨_, _, he⟩ := addMember_eq_error hmember
    cases he

/-! ## Finished modules -/

namespace Module

variable {m : Module} {signature : Signature} {config : Config}

/-- **Compiling breaks a contract only if slots run out.** -/
theorem Inv.compile_eq_fault {f : Fault} (hinv : m.Inv) (hop : m.Operative)
    (hsize : 1 ≤ config.workgroupSize) (hmax : 1 ≤ config.maxWorkgroups)
    (h : compile m signature config = .error (.fault f)) :
    f = .additionOverflow ∧ m.Overfull := by
  rcases compile_eq_error h with h | ⟨-, o, ho, previous, hfollows, h⟩
  · obtain ⟨_, _, _, _, _, -, -, -, he⟩ := hinv.partition_eq_error.1 h
    cases he
  · exact generate_eq_fault hinv hop hsize hmax ho hfollows h

/-- Whatever number a module mentions is that of a statement or block, and vectors have parts. -/
structure InBounds (m : Module) : Prop where
  listed : ∀ (b : Nat) (blk : Block), m.blocks[b]? = some blk → ∀ i ∈ blk.stmts, i < m.stmts.size
  owner : ∀ (b : Nat) (blk : Block), m.blocks[b]? = some blk → ∀ i, blk.owner = some i →
    i < m.stmts.size
  block : ∀ (i : Nat) (s : Stmt), m.stmts[i]? = some s → s.block < m.blocks.size
  operand : ∀ (i : Nat) (s : Stmt), m.stmts[i]? = some s → ∀ x ∈ s.kind.operands, x < m.stmts.size
  child : ∀ (i : Nat) (s : Stmt), m.stmts[i]? = some s → ∀ b ∈ s.kind.childBlocks,
    b < m.blocks.size
  component : ∀ (i : Nat) (s : Stmt), m.stmts[i]? = some s → ∀ x k, s.kind = .extract x k → k < 4

/-- What a module mentions is there. -/
theorem Inv.inBounds {m : Module} (h : m.Inv) (hop : m.Operative) : m.InBounds where
  listed b blk hblk i hi := by
    obtain ⟨s, hs, -⟩ := (h.mem_stmts hblk).1 hi
    exact stmts_lt_nextId hs
  owner b blk hblk i hi := by
    by_cases hb : b = rootBlock
    · obtain ⟨root, hroot, hnone⟩ := h.root
      rw [hb, hroot] at hblk
      cases hblk
      rw [hnone] at hi
      cases hi
    · obtain ⟨o, s, ho, hs, -⟩ := h.owned hblk hb
      rw [ho] at hi
      cases hi
      exact stmts_lt_nextId hs
  block i s hs := h.block_lt hs
  operand i s hs x hx := by
    obtain ⟨-, t, ht, -⟩ := h.operands hs x hx
    exact stmts_lt_nextId ht
  child i s hs b hb := by
    obtain ⟨blk, hblk, -⟩ := (h.children hs).2 b hb
    exact (Array.getElem?_eq_some_iff.1 hblk).1
  component i s hs := (hop i s hs).component

end Module

namespace Session

variable {actions : List Action} {s : Session} {m : Module}

theorem operative_of_finish (hrun : Session.run {} actions = .ok s)
    (hfinish : s.builder.finish = .ok m) : m.Inv ∧ m.Operative := by
  obtain ⟨hinv, hadmits⟩ := inv_of_finish hrun hfinish
  exact ⟨hinv, hinv.operative hadmits⟩

/-- **Compiling a finished module ends with a kernel or an error**, unless it has more than `2 ^ 31`
statements.  Everything that is looked up on the way is there, and slots are words.  A contract is
broken only by one offload, or by a vertex and a fragment stage, that use more than `2 ^ 32`
different resources: the addition that makes the next slot then overflows. -/
theorem compile_safe (hrun : Session.run {} actions = .ok s) (hfinish : s.builder.finish = .ok m)
    (signature : Signature) (config : Config) (hsize : 1 ≤ config.workgroupSize)
    (hmax : 1 ≤ config.maxWorkgroups) :
    m.InBounds ∧
      ((∃ kernel, compile m signature config = .ok kernel ∧
          ∀ t ∈ kernel.tasks, ∀ b ∈ t.bindings, b.slot < 2 ^ 32) ∨
        (∃ e, compile m signature config = .error (.error e)) ∨
        compile m signature config = .error (.fault .additionOverflow) ∧
          2 ^ 31 < m.stmts.size ∧ m.Overfull) := by
  obtain ⟨hinv, hop⟩ := operative_of_finish hrun hfinish
  refine ⟨hinv.inBounds hop, ?_⟩
  cases hcompile : compile m signature config with
  | ok kernel =>
    refine .inl ⟨kernel, rfl, fun t ht b hb => ?_⟩
    exact Compile.slot_lt_of_sequence (compileInOrder_of_compile hcompile).2 ht hb
  | error halt =>
    cases halt with
    | error e => exact .inr (.inl ⟨e, rfl⟩)
    | fault f =>
      obtain ⟨rfl, hfull⟩ := hinv.compile_eq_fault hop hsize hmax hcompile
      exact .inr (.inr ⟨rfl, hinv.lt_size_of_overfull hfull, hfull⟩)

/-- A vertex stage with an argument and a buffer; a fragment stage with it and a texture. -/
def shading : List Action :=
  [.create (.const (.i32 1)), .create .vertexFor, .openGuard .vertexFor 1,
    .create (.argLoad .f32 0), .create (.globalPtr ⟨0, [4], .f32, 1, 0, 0, true⟩ [0] 0),
    .create (.globalLoad 3), .create (.positionOutput [2, 2, 4, 2]), .create (.vertexOutput 4 0),
    .closeGuard 0, .create .fragmentFor, .openGuard .fragmentFor 7,
    .create (.fragmentInput .f32 0), .create (.textureSample ⟨0, .d2, .rgba8Unorm⟩ [8, 8]),
    .create (.extract 9 3), .create (.argLoad .f32 0), .create (.colorOutput 0 [10, 8, 8, 11]),
    .closeGuard 1]

/-- Two stages are compiled with small slots. -/
theorem compile_safe_shading : ∃ (s : Session) (m : Module) (kernel : Kernel),
    Session.run {} shading = .ok s ∧ s.builder.finish = .ok m ∧
      compile m ⟨4, 0⟩ {} = .ok kernel ∧
      kernel.tasks.map (fun t => t.bindings.map Binding.slot) = [[0, 1], [2, 3, 0]] ∧
      m.InBounds ∧
      ((∃ kernel, compile m ⟨4, 0⟩ {} = .ok kernel ∧
          ∀ t ∈ kernel.tasks, ∀ b ∈ t.bindings, b.slot < 2 ^ 32) ∨
        (∃ e, compile m ⟨4, 0⟩ {} = .error (.error e)) ∨
        compile m ⟨4, 0⟩ {} = .error (.fault .additionOverflow) ∧
          2 ^ 31 < m.stmts.size ∧ m.Overfull) := by
  have hkernel : ∃ s m kernel, Session.run {} shading = .ok s ∧ s.builder.finish = .ok m ∧
      compile m ⟨4, 0⟩ {} = .ok kernel ∧
      kernel.tasks.map (fun t => t.bindings.map Binding.slot) = [[0, 1], [2, 3, 0]] :=
    ⟨_, _, _, rfl, rfl, rfl, rfl⟩
  obtain ⟨s, m, kernel, hrun, hfinish, hcompile, hslots⟩ := hkernel
  exact ⟨s, m, kernel, hrun, hfinish, hcompile, hslots,
    compile_safe hrun hfinish ⟨4, 0⟩ {} (by decide) (by decide)⟩

end Session

end WgslKernel
