import Mathlib.Data.List.Induction
import Mathlib.Data.List.Perm.Subperm
import WgslKernel.Proofs.Scoping.Supply

/-!
# Binding slots

A shader declares a resource where it is first used.  The slots come from a table that an earlier
stage may have begun: at any time it holds the resources of both stages, numbered from zero in the
order of first use, unless there are more of them than slots.
-/

namespace WgslKernel

open List

/-! ## First occurrences -/

section FirstOccurrences

variable {α : Type} [DecidableEq α] {l : List α} {a : α}

theorem eraseDups_concat_of_mem (h : a ∈ l) : (l ++ [a]).eraseDups = l.eraseDups := by
  rw [eraseDups_append]
  simp [List.removeAll, h]

theorem eraseDups_concat_of_not_mem (h : a ∉ l) : (l ++ [a]).eraseDups = l.eraseDups ++ [a] := by
  rw [eraseDups_append]
  simp [List.removeAll, h, eraseDups_cons]

theorem nodup_eraseDups (l : List α) : l.eraseDups.Nodup := by
  induction l using List.reverseRecOn with
  | nil => simp
  | append_singleton l a ih =>
    by_cases h : a ∈ l
    · rwa [eraseDups_concat_of_mem h]
    · rw [eraseDups_concat_of_not_mem h]
      refine ih.append (nodup_singleton a) ?_
      simpa using h

theorem eraseDups_of_nodup (h : l.Nodup) : l.eraseDups = l := by
  induction l using List.reverseRecOn with
  | nil => simp
  | append_singleton l a ih =>
    obtain ⟨hl, -, hdisjoint⟩ := nodup_append.1 h
    have ha : a ∉ l := fun hmem => hdisjoint a hmem a (by simp) rfl
    rw [eraseDups_concat_of_not_mem ha, ih hl]

theorem filter_eraseDups (vs l : List α) :
    l.eraseDups.filter (fun a => a ∉ vs) = (l.removeAll vs).eraseDups := by
  induction l using List.reverseRecOn with
  | nil => simp
  | append_singleton l a ih =>
    have hsplit : (l ++ [a]).removeAll vs = l.removeAll vs ++ [a].removeAll vs :=
      filter_append ..
    by_cases h : a ∈ l
    · rw [eraseDups_concat_of_mem h, ih, hsplit, eraseDups_append]
      simp [List.removeAll, h]
    · rw [eraseDups_concat_of_not_mem h, filter_append, ih, hsplit, eraseDups_append]
      by_cases ha : a ∈ vs
      · simp [List.removeAll, ha]
      · simp [List.removeAll, ha, h, eraseDups_cons]

theorem length_eraseDups_le (l : List α) : l.eraseDups.length ≤ l.length := by
  induction l using List.reverseRecOn with
  | nil => simp
  | append_singleton l a ih =>
    by_cases h : a ∈ l
    · rw [eraseDups_concat_of_mem h, length_append]
      omega
    · rw [eraseDups_concat_of_not_mem h, length_append, length_append]
      omega

theorem length_eraseDups_mono {l' : List α} (h : l ⊆ l') :
    l.eraseDups.length ≤ l'.eraseDups.length := by
  refine ((nodup_eraseDups l).subperm fun a ha => ?_).length_le
  exact mem_eraseDups.2 (h (mem_eraseDups.1 ha))

end FirstOccurrences

/-! ## Consecutive slots -/

namespace Binding

variable {r : Resource} {rs vs : List Resource} {n : Nat} {b c : Binding}

/-- Resources at consecutive slots, from `first` on. -/
def consecutive (first : Nat) : List Resource → List Binding
  | [] => []
  | r :: rs => ⟨r, first⟩ :: consecutive (first + 1) rs

theorem consecutive_append (n : Nat) (rs vs : List Resource) :
    consecutive n (rs ++ vs) = consecutive n rs ++ consecutive (n + rs.length) vs := by
  induction rs generalizing n with
  | nil => rfl
  | cons r rs ih =>
    rw [cons_append, consecutive, ih, consecutive, cons_append, length_cons,
      show n + 1 + rs.length = n + (rs.length + 1) by omega]

@[simp] theorem map_resource_consecutive (n : Nat) (rs : List Resource) :
    (consecutive n rs).map resource = rs := by
  induction rs generalizing n with
  | nil => rfl
  | cons r rs ih => rw [consecutive, map_cons, ih]

@[simp] theorem length_consecutive (n : Nat) (rs : List Resource) :
    (consecutive n rs).length = rs.length := by
  rw [← length_map, map_resource_consecutive]

/-- Slots count up from the first one. -/
theorem map_slot_consecutive (n : Nat) (rs : List Resource) :
    (consecutive n rs).map slot = List.range' n rs.length := by
  induction rs generalizing n with
  | nil => rfl
  | cons r rs ih => rw [consecutive, map_cons, ih, length_cons, List.range'_succ]

theorem resource_mem_of_mem_consecutive (h : b ∈ consecutive n rs) : b.resource ∈ rs := by
  have hmem := mem_map_of_mem (f := resource) h
  rwa [map_resource_consecutive] at hmem

theorem exists_mem_consecutive (n : Nat) (h : r ∈ rs) : ∃ k, ⟨r, k⟩ ∈ consecutive n rs := by
  rw [← map_resource_consecutive n rs] at h
  obtain ⟨⟨r, k⟩, hb, rfl⟩ := mem_map.1 h
  exact ⟨k, hb⟩

/-- The slots are those from `n` on, as many as there are resources. -/
theorem mem_slots_consecutive {k : Nat} :
    (∃ b ∈ consecutive n rs, b.slot = k) ↔ n ≤ k ∧ k < n + rs.length := by
  rw [← mem_map (f := slot), map_slot_consecutive, mem_range'_1]

/-- A resource has one slot. -/
theorem eq_of_resource_eq (hrs : rs.Nodup) (hb : b ∈ consecutive n rs) (hc : c ∈ consecutive n rs)
    (h : b.resource = c.resource) : b = c := by
  rw [← map_resource_consecutive n rs] at hrs
  exact inj_on_of_nodup_map hrs hb hc h

/-- A slot holds one resource. -/
theorem eq_of_slot_eq (hb : b ∈ consecutive n rs) (hc : c ∈ consecutive n rs)
    (h : b.slot = c.slot) : b = c := by
  have hnodup : ((consecutive n rs).map slot).Nodup := by
    rw [map_slot_consecutive]
    exact nodup_range'
  exact inj_on_of_nodup_map hnodup hb hc h

/-- Bindings of the same resources in the same order, all from one table, are the same. -/
theorem eq_of_subset_consecutive {us : List Resource} {bs cs : List Binding} (hus : us.Nodup)
    (hbs : bs ⊆ consecutive n us) (hcs : cs ⊆ consecutive n us)
    (h : bs.map resource = cs.map resource) : bs = cs := by
  induction bs generalizing cs with
  | nil => exact (map_eq_nil_iff.1 h.symm).symm
  | cons b bs ih =>
    cases cs with
    | nil => simp at h
    | cons c cs =>
      rw [map_cons, map_cons, List.cons.injEq] at h
      have hb : b = c := eq_of_resource_eq hus (hbs mem_cons_self) (hcs mem_cons_self) h.1
      rw [hb, ih (fun x hx => hbs (mem_cons_of_mem _ hx))
        (fun x hx => hcs (mem_cons_of_mem _ hx)) h.2]

end Binding

/-! ## Tables -/

namespace BindingMap

variable {m : BindingMap} {r : Resource} {rs vs : List Resource}

theorem get?_eq_none : m.get? r = none ↔ ∀ b ∈ m.bindings, b.resource ≠ r := by
  simp [get?]

theorem mem_of_get? {slot : Nat} (h : m.get? r = some slot) : ⟨r, slot⟩ ∈ m.bindings := by
  obtain ⟨b, hb, rfl⟩ := Option.map_eq_some_iff.1 h
  have hresource : b.resource = r := by simpa using List.find?_some hb
  subst hresource
  exact mem_of_find?_eq_some hb

/-- The first free slot is above all others. -/
theorem slot_lt_foldl (bs : List Binding) (n : Nat) :
    n ≤ bs.foldl (fun next b => max next (b.slot + 1)) n ∧
      ∀ b ∈ bs, b.slot < bs.foldl (fun next b => max next (b.slot + 1)) n := by
  induction bs generalizing n with
  | nil => simp
  | cons c bs ih =>
    obtain ⟨hle, hlt⟩ := ih (max n (c.slot + 1))
    rw [foldl_cons]
    refine ⟨by omega, fun b hb => ?_⟩
    rcases mem_cons.1 hb with rfl | hb
    · omega
    · exact hlt b hb

/-- Consecutive slots leave the one behind them free. -/
theorem foldl_consecutive (n : Nat) (rs : List Resource) :
    (Binding.consecutive n rs).foldl (fun next b => max next (b.slot + 1)) n = n + rs.length := by
  induction rs generalizing n with
  | nil => rfl
  | cons r rs ih =>
    rw [Binding.consecutive, foldl_cons, show max n (n + 1) = n + 1 by omega, ih,
      length_cons]
    omega

/-- The next slot is the number of resources. -/
theorem firstFree_consecutive (rs : List Resource) :
    firstFree ⟨Binding.consecutive 0 rs⟩ = rs.length := by
  rw [firstFree, foldl_consecutive, Nat.zero_add]

/-- **The next slot is the first free one**, if that is a word. -/
theorem nextSlot_eq (m : BindingMap) :
    m.nextSlot =
      if m.firstFree < wordLimit then .ok m.firstFree else .error .additionOverflow := by
  rw [nextSlot, fitWord]
  by_cases h : m.firstFree < wordLimit
  · rw [if_pos h, if_pos h]
  · rw [if_neg h, if_neg h]

/-- A new resource takes the slot behind the others. -/
theorem add_consecutive (h : r ∉ rs) :
    add ⟨Binding.consecutive 0 rs⟩ r rs.length = .ok ⟨Binding.consecutive 0 (rs ++ [r])⟩ := by
  have hnew : (contains ⟨Binding.consecutive 0 rs⟩ r) = false := by
    have hnone : get? ⟨Binding.consecutive 0 rs⟩ r = none := by
      refine get?_eq_none.2 fun b hb hr => h ?_
      rw [← hr]
      exact Binding.resource_mem_of_mem_consecutive hb
    rw [contains, hnone]
    rfl
  have hfree : (Binding.consecutive 0 rs).any (fun b => b.slot == rs.length) = false := by
    rw [any_eq_false]
    intro b hb hslot
    have hlt := Binding.mem_slots_consecutive.1 ⟨b, hb, rfl⟩
    simp only [beq_iff_eq] at hslot
    omega
  rw [add, hnew, hfree, Binding.consecutive_append, Nat.zero_add]
  rfl

/-- The table of an earlier stage is taken over as it is. -/
theorem foldlM_add_consecutive (h : (vs ++ rs).Nodup) :
    (Binding.consecutive vs.length rs).foldlM (fun (m : BindingMap) b => m.add b.resource b.slot)
      ⟨Binding.consecutive 0 vs⟩ = .ok ⟨Binding.consecutive 0 (vs ++ rs)⟩ := by
  induction rs generalizing vs with
  | nil => simp [Binding.consecutive, pure, Except.pure]
  | cons r rs ih =>
    have hr : r ∉ vs := fun hmem => (nodup_append.1 h).2.2 r hmem r mem_cons_self rfl
    rw [append_cons] at h ⊢
    have hrest := ih h
    rw [length_append] at hrest
    rw [Binding.consecutive, foldlM_cons, add_consecutive hr]
    exact hrest

/-- Consecutive bindings are accepted. -/
theorem ofBindings_consecutive (h : vs.Nodup) :
    ofBindings (Binding.consecutive 0 vs) = .ok ⟨Binding.consecutive 0 vs⟩ := by
  have hnodup : ([] ++ vs).Nodup := h
  exact foldlM_add_consecutive hnodup

end BindingMap

namespace Codegen

variable {st st' : State} {u : Use} {uses : List Use} {rs vs : List Resource}

/-! ## Allotting slots -/

/-- The state of a stage that has used the resources `rs`, in this order, after a stage that bound
`vs`.  The slots are words, if those of the stage before are. -/
structure State.Allotted (vs rs : List Resource) (st : State) : Prop where
  resources : st.resources = rs.eraseDups
  table : st.bindings.bindings = Binding.consecutive 0 (vs ++ rs).eraseDups
  bound : ∀ g ∈ st.globals, g.binding ∈ st.bindings.bindings
  fits : (vs ++ rs).eraseDups.length ≤ max wordLimit vs.length

/-- A resource with a slot leaves the table as it is. -/
theorem eraseDups_known {r : Resource} (h : r ∈ vs ++ rs) :
    (vs ++ (rs ++ [r])).eraseDups = (vs ++ rs).eraseDups := by
  rw [← List.append_assoc, eraseDups_concat_of_mem h]

/-- One more resource is declared, at a slot of the table. -/
theorem State.Allotted.declare {slot : Nat} {bindings : BindingMap} (h : st.Allotted vs rs)
    (hnew : u.resource ∉ rs) (hsubset : st.bindings.bindings ⊆ bindings.bindings)
    (hslot : ⟨u.resource, slot⟩ ∈ bindings.bindings)
    (htable : bindings.bindings = Binding.consecutive 0 (vs ++ (rs ++ [u.resource])).eraseDups)
    (hfits : (vs ++ (rs ++ [u.resource])).eraseDups.length ≤ max wordLimit vs.length) :
    State.Allotted vs (rs ++ [u.resource]) { st with
      bindings, globals := st.globals ++ [⟨⟨u.resource, slot⟩, u.declaration⟩] } where
  resources := by
    rw [eraseDups_concat_of_not_mem hnew, ← h.resources, State.resources, map_append]
    rfl
  table := htable
  bound g hg := by
    rcases mem_append.1 hg with hg | hg
    · exact hsubset (h.bound g hg)
    · rwa [mem_singleton.1 hg]
  fits := hfits

/-- **A use keeps the table in order**, or there is no slot left for it. -/
theorem use_allotted (h : st.Allotted vs rs) (u : Use) :
    (∃ st', st.use u = .ok st' ∧ st'.Allotted vs (rs ++ [u.resource])) ∨
      st.use u = .error .additionOverflow ∧
        wordLimit < (vs ++ (rs ++ [u.resource])).eraseDups.length := by
  have hany : (st.globals.any fun g => g.binding.resource = u.resource) = true ↔
      u.resource ∈ rs := by
    rw [← mem_eraseDups, ← h.resources]
    simp [State.resources]
  unfold State.use
  by_cases hin : u.resource ∈ rs
  · -- declared already
    have hknown := eraseDups_known (mem_append_right vs hin)
    rw [if_pos (hany.2 hin)]
    refine .inl ⟨st, rfl, ?_, ?_, h.bound, ?_⟩
    · rw [h.resources, eraseDups_concat_of_mem hin]
    · rw [h.table, hknown]
    · rw [hknown]
      exact h.fits
  rw [if_neg (mt hany.1 hin)]
  cases hget : st.bindings.get? u.resource with
  | some slot =>
    -- a slot from the stage before
    have hmem := BindingMap.mem_of_get? hget
    have hknown : (vs ++ (rs ++ [u.resource])).eraseDups = (vs ++ rs).eraseDups := by
      refine eraseDups_known ?_
      rw [h.table] at hmem
      exact mem_eraseDups.1 (Binding.resource_mem_of_mem_consecutive hmem)
    refine .inl ⟨_, rfl, h.declare hin (List.Subset.refl _) hmem ?_ ?_⟩
    · rw [hknown]
      exact h.table
    · rw [hknown]
      exact h.fits
  | none =>
    -- a new slot, behind all others
    have hnew : u.resource ∉ (vs ++ rs).eraseDups := by
      intro hmem
      obtain ⟨k, hk⟩ := Binding.exists_mem_consecutive 0 hmem
      rw [← h.table] at hk
      exact BindingMap.get?_eq_none.1 hget _ hk rfl
    have hnext : (vs ++ (rs ++ [u.resource])).eraseDups =
        (vs ++ rs).eraseDups ++ [u.resource] := by
      rw [← List.append_assoc, eraseDups_concat_of_not_mem (mt mem_eraseDups.2 hnew)]
    have hmap : st.bindings = ⟨Binding.consecutive 0 (vs ++ rs).eraseDups⟩ := by
      rw [← h.table]
    have hlength : (vs ++ (rs ++ [u.resource])).eraseDups.length =
        (vs ++ rs).eraseDups.length + 1 := by
      rw [hnext, length_append, length_singleton]
    dsimp only
    rw [hmap, BindingMap.nextSlot_eq, BindingMap.firstFree_consecutive]
    by_cases hfree : (vs ++ rs).eraseDups.length < wordLimit
    · rw [if_pos hfree, ok_bind, BindingMap.add_consecutive hnew]
      refine .inl ⟨_, rfl, h.declare hin ?_ ?_ (by rw [hnext]) (by omega)⟩
      · rw [h.table, Binding.consecutive_append]
        exact subset_append_left _ _
      · rw [Binding.consecutive_append, Nat.zero_add]
        exact mem_append_right _ mem_cons_self
    · rw [if_neg hfree]
      exact .inr ⟨rfl, by omega⟩

/-- **Uses keep the table in order**, or they are of more resources than there are slots. -/
theorem uses_allotted (h : st.Allotted vs rs) (uses : List Use) :
    (∃ st', uses.foldlM State.use st = .ok st' ∧ st'.Allotted vs (rs ++ uses.map Use.resource)) ∨
      uses.foldlM State.use st = .error .additionOverflow ∧
        wordLimit < (vs ++ (rs ++ uses.map Use.resource)).eraseDups.length := by
  induction uses generalizing st rs with
  | nil => exact .inl ⟨st, rfl, by simpa using h⟩
  | cons u uses ih =>
    rw [foldlM_cons, map_cons, append_cons rs]
    rcases use_allotted h u with ⟨st₁, hu, h₁⟩ | ⟨hu, hfull⟩
    · rw [hu]
      exact ih h₁
    · rw [hu]
      refine .inr ⟨rfl, Nat.lt_of_lt_of_le hfull (length_eraseDups_mono ?_)⟩
      exact ((sublist_append_left _ _).append_left vs).subset

/-- Uses are allotted one after another. -/
theorem State.Allotted.foldlM (h : st.Allotted vs rs) (huses : uses.foldlM State.use st = .ok st') :
    st'.Allotted vs (rs ++ uses.map Use.resource) := by
  rcases uses_allotted h uses with ⟨st₁, hok, h₁⟩ | ⟨herror, -⟩
  · cases hok.symm.trans huses
    exact h₁
  · cases herror.symm.trans huses

/-- What a statement adds to the state leaves the slots as its uses made them. -/
theorem apply_allotted {id : StmtId} {l : Lowering} (h : st.Allotted vs rs)
    (happly : st.apply id l = .ok st') : st'.Allotted vs (rs ++ l.uses.map Use.resource) := by
  obtain ⟨st₁, huses, happly⟩ := bind_eq_ok.1 happly
  obtain ⟨inputs, -, happly⟩ := bind_eq_ok.1 happly
  obtain ⟨outputs, -, happly⟩ := bind_eq_ok.1 happly
  cases happly
  have h₁ := h.foldlM (orFault_eq_ok.1 huses)
  exact ⟨h₁.resources, h₁.table, h₁.bound, h₁.fits⟩

/-- A stage starts from the bindings of the one before. -/
theorem allotted_start (h : vs.Nodup) :
    State.Allotted vs [] { bindings := ⟨Binding.consecutive 0 vs⟩ } where
  resources := rfl
  table := by rw [append_nil, eraseDups_of_nodup h]
  bound := by simp
  fits := by
    rw [append_nil, eraseDups_of_nodup h]
    exact Nat.le_max_right _ _

end Codegen

/-! ## The slots of a task -/

namespace Binding

variable {bs : List Binding} {rs vs : List Resource}

/-- The bindings of a stage that uses `rs`, in this order, after a stage that bound `vs`. -/
structure Shares (vs rs : List Resource) (bs : List Binding) : Prop where
  resources : bs.map resource = rs.eraseDups
  subset : bs ⊆ consecutive 0 (vs ++ rs).eraseDups
  fits : (vs ++ rs).eraseDups.length ≤ max wordLimit vs.length

end Binding

/-- What is declared are the slots that were allotted. -/
theorem Codegen.State.Allotted.shares {st : Codegen.State} {vs rs : List Resource}
    (h : st.Allotted vs rs) : Binding.Shares vs rs (st.globals.map Global.binding) where
  resources := by rw [map_map, ← h.resources]; rfl
  subset b hb := by
    obtain ⟨g, hg, rfl⟩ := mem_map.1 hb
    rw [← h.table]
    exact h.bound g hg
  fits := h.fits

namespace Binding.Shares

variable {bs : List Binding} {rs vs : List Resource} {b : Binding}

/-- Without a stage before, the slots are those from zero on, in the order of first use. -/
theorem eq_consecutive (h : Shares [] rs bs) : bs = consecutive 0 rs.eraseDups := by
  refine eq_of_subset_consecutive (nodup_eraseDups rs) h.subset (fun b hb => hb) ?_
  rw [h.resources, map_resource_consecutive]

theorem eraseDups_eq (hvs : vs.Nodup) (rs : List Resource) :
    (vs ++ rs).eraseDups = vs ++ (rs.removeAll vs).eraseDups := by
  rw [eraseDups_append, eraseDups_of_nodup hvs]

/-- A table is that of the stage before, followed by what is new. -/
theorem table_eq (hvs : vs.Nodup) (rs : List Resource) :
    consecutive 0 (vs ++ rs).eraseDups =
      consecutive 0 vs ++ consecutive vs.length (rs.removeAll vs).eraseDups := by
  rw [eraseDups_eq hvs, consecutive_append, Nat.zero_add]

theorem not_mem_of_mem_fresh {n : Nat} (hb : b ∈ consecutive n (rs.removeAll vs).eraseDups) :
    b.resource ∈ rs ∧ b.resource ∉ vs := by
  have hr := resource_mem_of_mem_consecutive hb
  rw [mem_eraseDups, List.removeAll, mem_filter] at hr
  simpa using hr

/-- A resource that the stage before has bound keeps its slot. -/
theorem mem_of_mem_before (h : Shares vs rs bs) (hvs : vs.Nodup) (hb : b ∈ bs)
    (hr : b.resource ∈ vs) : b ∈ consecutive 0 vs := by
  have htable := h.subset hb
  rw [table_eq hvs] at htable
  rcases mem_append.1 htable with hold | hfresh
  · exact hold
  · exact absurd hr (not_mem_of_mem_fresh hfresh).2

/-- The other resources take the slots behind those of the stage before, by first use. -/
theorem filter_eq (h : Shares vs rs bs) (hvs : vs.Nodup) :
    bs.filter (fun b => b.resource ∉ vs) =
      consecutive vs.length (rs.removeAll vs).eraseDups := by
  have hsub : consecutive vs.length (rs.removeAll vs).eraseDups ⊆
      consecutive 0 (vs ++ rs).eraseDups := by
    rw [table_eq hvs]
    exact subset_append_right _ _
  refine eq_of_subset_consecutive (nodup_eraseDups (vs ++ rs))
    (fun b hb => h.subset (mem_of_mem_filter hb)) hsub ?_
  have hfilter : (bs.filter fun b => b.resource ∉ vs).map resource =
      (bs.map resource).filter (fun r => r ∉ vs) := by
    rw [filter_map]
    rfl
  rw [hfilter, h.resources, map_resource_consecutive]
  exact filter_eraseDups vs rs

/-- The bindings of the two stages make up one table. -/
theorem mem_union (h : Shares vs rs bs) (hvs : vs.Nodup) :
    b ∈ consecutive 0 vs ∨ b ∈ bs ↔ b ∈ consecutive 0 (vs ++ rs).eraseDups := by
  rw [table_eq hvs, mem_append, ← h.filter_eq hvs, mem_filter]
  constructor
  · rintro (hb | hb)
    · exact .inl hb
    · by_cases hr : b.resource ∈ vs
      · exact .inl (h.mem_of_mem_before hvs hb hr)
      · exact .inr ⟨hb, by simpa using hr⟩
  · rintro (hb | hb)
    · exact .inl hb
    · exact .inr hb.1

end Binding.Shares

end WgslKernel
