import WgslKernel.Proofs.Codegen.Program
import WgslKernel.Proofs.Scoping.Lowering

/-!
# What a walk supplies

While a walk goes on, its state collects what the shader has to declare.  A statement adds exactly
what it asks for, so that nothing that was asked for is missing at the end.
-/

namespace WgslKernel.Codegen

open List

variable {ctx : Context} {st st' : State} {values : Values} {s : Stmt} {l : Lowering} {n : Name}

/-! ## Names on offer -/

/-- The resources collected so far. -/
def State.resources (st : State) : List Resource := st.globals.map fun g => g.binding.resource

/-- The names that are going to be declared ahead of the code. -/
def State.Offers (st : State) : Name → Prop
  | .ident (.resource r) => r ∈ st.resources
  | .ident .stageInput => st.inputs ≠ []
  | .ident .stageOutput => st.outputs ≠ []
  | .helper f => f.isHelper = true ∧ st.random = true
  | _ => False

theorem use_resources {u : Use} (h : st.use u = .ok st') :
    st'.resources = if u.resource ∈ st.resources then st.resources
      else st.resources ++ [u.resource] := by
  have hany : (st.globals.any fun g => g.binding.resource = u.resource) = true ↔
      u.resource ∈ st.resources := by simp [State.resources]
  obtain ⟨hmem, rfl⟩ | ⟨hmem, bindings, slot, rfl⟩ := use_cases h
  · rw [if_pos (hany.1 hmem)]
  · rw [if_neg (hany.not.1 (by simp [hmem]))]
    simp [State.resources]

theorem uses_resources {uses : List Use} (h : uses.foldlM State.use st = .ok st') :
    (∀ r, r ∈ st'.resources ↔ r ∈ st.resources ∨ ∃ u ∈ uses, u.resource = r) ∧
      (st.resources.Nodup → st'.resources.Nodup) := by
  induction uses generalizing st with
  | nil =>
    cases h
    simp
  | cons u uses ih =>
    rw [foldlM_cons] at h
    obtain ⟨st₁, hu, h⟩ := bind_eq_ok.1 h
    obtain ⟨hmem, hnodup⟩ := ih h
    have hresources := use_resources hu
    refine ⟨fun r => ?_, fun hst => hnodup ?_⟩
    · rw [hmem, hresources]
      split
      · rename_i hin
        simp only [exists_mem_cons_iff]
        constructor
        · rintro (hr | hr)
          · exact .inl hr
          · exact .inr (.inr hr)
        · rintro (hr | rfl | hr)
          · exact .inl hr
          · exact .inl hin
          · exact .inr hr
      · simp only [mem_append, mem_singleton, exists_mem_cons_iff, or_assoc, eq_comm]
    · rw [hresources]
      split
      · exact hst
      · rename_i hnot
        exact nodup_append.2 ⟨hst, nodup_singleton _, by
          intro a ha b hb hab
          rw [mem_singleton] at hb
          exact hnot (hb ▸ hab ▸ ha)⟩

theorem addMembers_ne_nil {id : StmtId} {members members' ms : List StageMember}
    (h : ms.foldlM (State.addMember id) members = .ok members') :
    members' ≠ [] ↔ members ≠ [] ∨ ms ≠ [] := by
  induction ms generalizing members with
  | nil =>
    cases h
    simp
  | cons m ms ih =>
    rw [foldlM_cons] at h
    obtain ⟨members₁, hm, h⟩ := bind_eq_ok.1 h
    rw [ih h]
    simp [addMember_ne_nil hm]

/-- **A statement adds what it asks for.** -/
theorem apply_offers {id : StmtId} (h : st.apply id l = .ok st') :
    st'.Offers n ↔ st.Offers n ∨ l.Asks n := by
  obtain ⟨bindings, globals, inputs, outputs, huses, hinputs, houtputs, rfl⟩ := apply_eq_ok h
  unfold State.Offers Lowering.Asks
  split
  · exact (uses_resources huses).1 _
  · exact addMembers_ne_nil hinputs
  · exact addMembers_ne_nil houtputs
  · rw [Bool.or_eq_true, and_or_left]
  · simp

/-- What is offered stays offered. -/
theorem Walks.offers {o : Outline} {code : Code} (h : Walks ctx st o st' code)
    (hn : st.Offers n) : st'.Offers n :=
  h.keeps (P := fun st => st.Offers n)
    (fun _ hn _ happly => (apply_offers happly).2 (.inl hn)) hn

/-! ## Sound states -/

/-- What is true of the state of a walk all along. -/
structure State.Sound (ctx : Context) (st : State) : Prop where
  nodup : st.resources.Nodup
  numbered : ∀ r ∈ st.resources, r.IsNumbered
  compute : ctx.stage = .compute → ¬ st.Offers (.ident .stageInput) ∧
    ¬ st.Offers (.ident .stageOutput)
  /-- The seed is a word of the temporaries, and graphics stages mix in one of their inputs. -/
  seeded : st.random = true → st.Offers (.ident (.resource .globalTmps)) ∧
    (ctx.stage ≠ .compute → st.Offers (.ident .stageInput))

/-- Stage members are asked for in graphics stages only. -/
theorem Lowers.stage (h : Lowers ctx values s l) (hcompute : ctx.stage = .compute) :
    ¬ l.Asks (.ident .stageInput) ∧ ¬ l.Asks (.ident .stageOutput) := by
  have hnone {l : Lowering} (hin : l.inputs = []) (hout : l.outputs = []) :
      ¬ l.Asks (.ident .stageInput) ∧ ¬ l.Asks (.ident .stageOutput) :=
    ⟨fun h => h hin, fun h => h hout⟩
  cases h with
  | vertexInput _ hstage | vertexOutput _ hstage | fragmentInput _ hstage | vertexIndex _ hstage
  | instanceIndex _ hstage | fragCoord _ hstage | color _ hstage | fragDepth _ hstage =>
    rw [hcompute] at hstage
    cases hstage
  | rand => exact hnone (by rw [hcompute]; rfl) rfl
  | sample _ _ hl | sampleLod _ _ _ hl =>
    obtain ⟨use, e, type, -, -, rfl⟩ := sampleTexture_eq_ok hl
    exact hnone rfl rfl
  | _ => exact hnone rfl rfl

/-- A statement that draws a random number asks for what the seed is made of. -/
theorem Lowers.seeded (h : Lowers ctx values s l) (hrandom : l.random = true) :
    l.Asks (.ident (.resource .globalTmps)) ∧
      (ctx.stage ≠ .compute → l.Asks (.ident .stageInput)) := by
  cases h with
  | rand =>
    refine ⟨⟨ctx.useGlobalTmps, mem_cons_self, rfl⟩, fun hstage => ?_⟩
    show randInputs ctx.stage ≠ []
    cases hs : ctx.stage with
    | compute => exact absurd hs hstage
    | vertex | fragment => exact cons_ne_nil _ _
  | sample _ _ hl | sampleLod _ _ _ hl =>
    obtain ⟨use, e, type, -, -, rfl⟩ := sampleTexture_eq_ok hl
    cases hrandom
  | _ => cases hrandom

/-- A statement keeps what was collected sound. -/
theorem State.Sound.apply (h : st.Sound ctx) (hl : Lowers ctx values s l)
    (happly : st.apply s.id l = .ok st') : st'.Sound ctx where
  nodup := by
    obtain ⟨_, _, _, _, huses, -, -, rfl⟩ := apply_eq_ok happly
    exact (uses_resources huses).2 h.nodup
  numbered r hr := by
    rcases (apply_offers (n := .ident (.resource r)) happly).1 hr with hr | ⟨u, hu, rfl⟩
    · exact h.numbered r hr
    · exact hl.tidy.uses u hu
  compute hstage := by
    rw [apply_offers happly, apply_offers happly, not_or, not_or]
    exact ⟨⟨(h.compute hstage).1, (hl.stage hstage).1⟩, (h.compute hstage).2, (hl.stage hstage).2⟩
  seeded hrandom := by
    rw [apply_offers happly, apply_offers happly]
    rw [(apply_values happly).2, Bool.or_eq_true] at hrandom
    rcases hrandom with hrandom | hrandom
    · exact ⟨.inl (h.seeded hrandom).1, fun hstage => .inl ((h.seeded hrandom).2 hstage)⟩
    · exact ⟨.inr (hl.seeded hrandom).1, fun hstage => .inr ((hl.seeded hrandom).2 hstage)⟩

/-- **A walk keeps its state sound.** -/
theorem Walks.sound {o : Outline} {code : Code} (h : Walks ctx st o st' code)
    (hst : st.Sound ctx) : st'.Sound ctx :=
  h.keeps (fun _ hst hl happly => hst.apply hl happly) hst

end WgslKernel.Codegen
