import WgslKernel.Proofs.Builder.Guards
import WgslKernel.Proofs.Safety.Kernels

/-!
# A kernel that runs out of slots

The smallest module that breaks a contract when it is compiled loads an argument, and samples
`2 ^ 31` textures at the place that the argument gives.  Every sample uses a texture and a sampler
of its own, so that there are `2 ^ 32 + 1` resources, and one slot too few.
-/

namespace WgslKernel

open List

/-! ## The module -/

/-- Operation number `i`: the first loads an argument, the others sample one texture each. -/
def Op.sampling : Nat → Op
  | 0 => .argLoad .f32 0
  | k + 1 => .textureSample ⟨k, .d2, .rgba8Unorm⟩ [0, 0]

/-- The statement numbered `i`. -/
def Stmt.sampling (i : Nat) : Stmt where
  id := i
  block := rootBlock
  kind := match i with
    | 0 => .argLoad .f32 0
    | k + 1 => .texture .sample ⟨k, .d2, .rgba8Unorm⟩ [0, 0]

/-- The module of the first `n` statements. -/
def Module.sampling (n : Nat) : Module where
  stmts := ((List.range n).map Stmt.sampling).toArray
  blocks := #[{ stmts := List.range n }]

/-- The session that builds it. -/
def Session.sampling (n : Nat) : List Action := (List.range n).map fun i => .create (.sampling i)

namespace Module

variable {n i : Nat}

theorem stmts_sampling (hi : i < n) : (sampling n).stmts[i]? = some (.sampling i) := by
  simp [sampling, hi]

theorem kind?_sampling (hi : i < n) : (sampling n).kind? i = some (Stmt.sampling i).kind := by
  rw [kind?, stmts_sampling hi, Option.map_some]

/-- Nothing is read but the first statement. -/
theorem operand_sampling {x : StmtId} (hx : x ∈ (Stmt.sampling i).kind.operands) :
    x = 0 ∧ 0 < i := by
  cases i with
  | zero => cases hx
  | succ k => simpa [Stmt.sampling, Kind.operands, TextureAccess.operands] using hx

theorem append_sampling (n : Nat) :
    (sampling n).append rootBlock (Stmt.sampling n).kind = sampling (n + 1) := by
  simp [append, sampling, nextId, range_succ, rootBlock, Stmt.sampling, Array.modify, Array.modifyM]

theorem create_sampling (n : Nat) :
    Builder.create { module := sampling n } (.sampling n) =
      .ok ({ module := sampling (n + 1) }, n) := by
  have happend : Builder.append { module := sampling n } (Stmt.sampling n).kind =
      .ok ({ module := sampling (n + 1) }, n) := by
    have hsize : (sampling n).nextId = n := by simp [nextId, sampling]
    refine bind_eq_ok.2 ⟨(), forM_eq_ok.2 fun x hx => ?_, ?_⟩
    · obtain ⟨rfl, hpos⟩ := operand_sampling hx
      rw [Builder.checkOperand, stmts_sampling hpos]
      rfl
    · rw [hsize, ← append_sampling]
      rfl
  cases n with
  | zero => exact happend
  | succ k => exact happend

end Module

/-- The run that builds the module. -/
theorem Session.run_sampling (n : Nat) :
    Session.run {} (sampling n) = .ok { builder := { module := .sampling n } } := by
  induction n with
  | zero => rfl
  | succ n ih =>
    rw [sampling, range_succ, map_append]
    refine run_concat.2 ⟨_, .created n, ih, ?_⟩
    exact bind_eq_ok.2 ⟨_, Module.create_sampling n, rfl⟩

namespace Module

variable {n i : Nat} {ids : List StmtId}

/-- All of it is one offload. -/
theorem groups_sampling (n : Nat) :
    (sampling (n + 1)).groups = [⟨.serial, List.range (n + 1)⟩] := by
  have hgroups (run ids : List StmtId) (hids : ∀ i ∈ ids, i < n + 1) :
      (sampling (n + 1)).groupsFrom run ids = flushRun (run ++ ids) := by
    induction ids generalizing run with
    | nil => simp [groupsFrom]
    | cons i ids ih =>
      obtain ⟨hi, hids⟩ := forall_mem_cons.1 hids
      have hstep : (sampling (n + 1)).groupsFrom run (i :: ids) =
          (sampling (n + 1)).groupsFrom (run ++ [i]) ids := by
        rw [groupsFrom, kind?_sampling hi]
        cases i <;> rfl
      rw [hstep, ih (run ++ [i]) hids, List.append_assoc]
      rfl
  have hrun := hgroups [] (List.range (n + 1)) fun i hi => mem_range.1 hi
  rw [nil_append, flushRun, if_neg (by simp)] at hrun
  exact hrun

/-- The offload reads nothing from another one. -/
theorem selfContained_sampling (n : Nat) :
    (sampling (n + 1)).SelfContained ⟨.serial, List.range (n + 1)⟩ := by
  intro i _ s hs x hx
  have hi : i < n + 1 := by simpa [sampling] using (Array.getElem?_eq_some_iff.1 hs).1
  rw [stmts_sampling hi] at hs
  cases hs
  obtain ⟨rfl, -⟩ := operand_sampling hx
  exact .inl ⟨0, mem_range.2 (Nat.succ_pos n), .inl rfl⟩

theorem outlineOf_sampling {under : BlockId → Outline} (hi : i < n) :
    (sampling n).outlineOf under (i :: ids) =
      .cons (.sampling i) .nil .nil ((sampling n).outlineOf under ids) := by
  rw [outlineOf, stmts_sampling hi]
  cases i <;> rfl

/-- The resources of the statement numbered `i`. -/
theorem resources_sampling (m : Module) (i : Nat) : m.resources (Stmt.sampling i).kind =
    match i with
    | 0 => [.args]
    | k + 1 => [.texture k, .sampler k] := by
  cases i <;> rfl

/-- The resources of the offload, in order. -/
theorem uses_sampling (n : Nat) : (sampling n).uses ⟨.serial, List.range n⟩ =
    (List.range n).flatMap fun i => (sampling n).resources (Stmt.sampling i).kind := by
  have hstmts (ids : List StmtId) (hids : ∀ i ∈ ids, i < n) :
      ((sampling n).outlineOf (sampling n).outline ids).stmts = ids.map .sampling := by
    induction ids with
    | nil => rfl
    | cons i ids ih =>
      obtain ⟨hi, hids⟩ := forall_mem_cons.1 hids
      rw [outlineOf_sampling hi, Outline.stmts, ih hids]
      rfl
  rw [uses, walked, hstmts _ fun i hi => mem_range.1 hi, flatMap_map]
  rfl

/-- No two statements share a resource, and all but the first have two. -/
theorem length_uses_sampling (n : Nat) :
    ((sampling (n + 1)).uses ⟨.serial, List.range (n + 1)⟩).eraseDups.length = 2 * n + 1 := by
  rw [uses_sampling, eraseDups_of_nodup]
  · simp only [resources_sampling]
    induction n with
    | zero => rfl
    | succ n ih =>
      rw [range_succ, flatMap_append, length_append, ih]
      rfl
  · refine nodup_flatMap.2 ⟨fun i _ => ?_, ?_⟩
    · rw [resources_sampling]
      cases i <;> simp [Resource.texture, Resource.sampler]
    · refine nodup_range.imp fun {i j} hne r hi hj => hne ?_
      simp only [resources_sampling] at hi hj
      cases i <;> cases j <;>
        simp_all [Resource.texture, Resource.sampler, Resource.args]
      rcases hi with rfl | rfl <;> simp_all

end Module

/-! ## Its shader -/

namespace Codegen

variable {ctx : Context} {st : State} {n k : Nat} {halt : Halt} {v : Value}

/-- Statements that add no members to the interfaces fail only for want of a slot. -/
theorem apply_eq_fault {id : StmtId} {l : Lowering} (hinputs : l.inputs = [])
    (houtputs : l.outputs = []) (h : st.apply id l = .error halt) : ∃ f, halt = .fault f := by
  rcases bind_eq_error.1 h with h | ⟨st₁, -, h⟩
  · obtain ⟨f, -, hf⟩ := orFault_eq_error.1 h
    exact ⟨f, hf⟩
  · rw [hinputs, houtputs] at h
    cases h

/-- A texture is sampled at any scalar. -/
theorem lower_sampling (ctx : Context) (k : Nat) (hv : st.values.lookup 0 = some v)
    (hscalar : v.type.isScalar = true) :
    ∃ l, lower ctx st.values (.sampling (k + 1)) = .ok l ∧ l.inputs = [] ∧ l.outputs = [] := by
  have hcoord : ctx.scalar st.values (k + 1) 0 = .ok v := by
    simp [Context.scalar, Context.value, hv, hscalar]
  have hcoords : [0, 0].mapM (ctx.scalar st.values (k + 1)) = .ok [v, v] :=
    mapM_eq_ok.2 (.cons hcoord (.cons hcoord .nil))
  cases hl : lower ctx st.values (.sampling (k + 1)) with
  | error halt =>
    simp only [lower, Stmt.sampling, lowerTexture, hcoords, ok_bind] at hl
    cases hl
  | ok l =>
    refine ⟨l, rfl, ?_⟩
    simp only [lower, Stmt.sampling, lowerTexture, hcoords, ok_bind] at hl
    cases hl
    exact ⟨rfl, rfl⟩

/-- The walk breaks a contract. -/
theorem walk_sampling_eq_error {ids : List StmtId} (hids : ∀ i ∈ ids, 0 < i ∧ i < n)
    (hv : st.values.lookup 0 = some v) (hscalar : v.type.isScalar = true)
    (h : walk ctx st ((Module.sampling n).outlineOf (Module.sampling n).outline ids) =
      .error halt) : ∃ f, halt = .fault f := by
  induction ids generalizing st with
  | nil => cases h
  | cons i ids ih =>
    obtain ⟨⟨hpos, hlt⟩, hrest⟩ := forall_mem_cons.1 hids
    obtain ⟨k, rfl⟩ := Nat.exists_eq_succ_of_ne_zero (Nat.ne_of_gt hpos)
    obtain ⟨l, hl, hinputs, houtputs⟩ := lower_sampling ctx k hv hscalar
    rw [Module.outlineOf_sampling hlt] at h
    rcases bind_eq_error.1 h with h | ⟨l', hl', h⟩
    · cases hl.symm.trans h
    cases hl.symm.trans hl'
    rcases bind_eq_error.1 h with h | ⟨st₁, happly, h⟩
    · exact apply_eq_fault hinputs houtputs h
    rcases bind_eq_error.1 h with h | ⟨_, -, h⟩
    · exact ih hrest ((apply_lookup happly (Nat.succ_ne_zero k).symm).trans hv) h
    · cases h

end Codegen

open Codegen in
/-- **None of the statements is refused.** -/
theorem generate_sampling_eq_error {n : Nat} {config : Config} {previous : Option Task}
    {halt : Halt} (h : generate (.sampling (n + 1)) ⟨.serial, List.range (n + 1)⟩ ⟨4, 0⟩ config
      previous = .error halt) : ∃ f, halt = .fault f := by
  rcases generate_eq_error h with ⟨f, -, hf⟩ | ⟨bindings, -, h⟩
  · exact ⟨f, hf⟩
  have hfound : ∀ i ∈ List.range (n + 1), ∃ s, (Module.sampling (n + 1)).stmts[i]? = some s :=
    fun i hi => ⟨_, Module.stmts_sampling (mem_range.1 hi)⟩
  rcases bind_eq_error.1 h with h | ⟨_, -, h⟩
  · rw [walkTop_eq_walk hfound] at h
    dsimp only [contextOf] at h
    rw [range_succ_eq_map, Module.outlineOf_sampling (Nat.succ_pos n)] at h
    rcases bind_eq_error.1 h with h | ⟨l, hl, h⟩
    · cases h
    cases hl
    rcases bind_eq_error.1 h with h | ⟨st₁, happly, h⟩
    · exact apply_eq_fault rfl rfl h
    rcases bind_eq_error.1 h with h | ⟨_, -, h⟩
    · have hv : st₁.values.lookup 0 = some ⟨.ident (.temp 0), .ofPrim .f32⟩ := by
        rw [(apply_values happly).1]
        rfl
      refine walk_sampling_eq_error (fun i hi => ?_) hv rfl h
      obtain ⟨j, hj, rfl⟩ := mem_map.1 hi
      exact ⟨Nat.succ_pos j, Nat.succ_lt_succ (mem_range.1 hj)⟩
    · cases h
  · cases h

/-- **Slots run out in a module of `2 ^ 31 + 1` statements**: compiling it breaks a contract. -/
theorem Session.compile_overflows : ∃ s m, Session.run {} (sampling (2 ^ 31 + 1)) = .ok s ∧
    s.builder.finish = .ok m ∧ m.stmts.size = 2 ^ 31 + 1 ∧
    compile m ⟨4, 0⟩ {} = .error (.fault .additionOverflow) := by
  have hrun := run_sampling (2 ^ 31 + 1)
  refine ⟨_, _, hrun, rfl, by simp [Module.sampling], ?_⟩
  obtain ⟨hinv, hop⟩ := operative_of_finish hrun rfl
  have hgroups := Module.groups_sampling (2 ^ 31)
  have ho : ⟨.serial, List.range (2 ^ 31 + 1)⟩ ∈ (Module.sampling (2 ^ 31 + 1)).groups := by
    rw [hgroups]
    exact mem_cons_self
  cases hcompile : compile (.sampling (2 ^ 31 + 1)) ⟨4, 0⟩ {} with
  | ok kernel =>
    -- A task would have numbered all resources.
    have htask := (compileInOrder_of_compile hcompile).2
    rw [hgroups] at htask
    obtain ⟨t, -, -, ht, -⟩ := Compile.sequence_cons_eq_ok htask
    have hfits := (Codegen.generate_shares ho nodup_nil rfl ht).fits
    rw [nil_append, Module.length_uses_sampling] at hfits
    exact absurd hfits (by decide)
  | error halt =>
    cases halt with
    | fault f =>
      obtain ⟨rfl, -⟩ := hinv.compile_eq_fault hop (by decide) (by decide) hcompile
      rfl
    | error e =>
      rcases compile_eq_error hcompile with h | ⟨-, o, ho', previous, -, h⟩
      · have hself : ∀ o ∈ (Module.sampling (2 ^ 31 + 1)).groups,
            (Module.sampling (2 ^ 31 + 1)).SelfContained o := by
          rw [hgroups]
          exact forall_mem_singleton.2 (Module.selfContained_sampling _)
        cases (hinv.partition_eq_ok.2 ⟨rfl, hself⟩).symm.trans h
      · rw [hgroups, mem_singleton] at ho'
        subst ho'
        obtain ⟨f, hf⟩ := generate_sampling_eq_error h
        cases hf

end WgslKernel
