import WgslKernel.Proofs.Bindings.FirstUse
import WgslKernel.Proofs.Codegen.Compile

/-!
# Slots over a pair of stages

A fragment shader is linked with a vertex shader, so the slots of the two have to be one numbering.
`Binding.Extends` says when they are, and every task of a kernel extends the one it starts from.
-/

namespace WgslKernel

open List

namespace Binding

/-- The bindings `bs` of a stage that uses `uses`, in this order, extend those before. -/
structure Extends (vs : List Binding) (uses : List Resource) (bs : List Binding) : Prop where
  distinct : (bs.map resource).Nodup
  /-- Resources stand in the order of first use. -/
  order : bs.map resource = uses.eraseDups
  /-- Resources of the stage before keep their slots. -/
  kept : ∀ b ∈ bs, ∀ v ∈ vs, b.resource = v.resource → b.slot = v.slot
  /-- The others take the slots behind, one by one. -/
  fresh : ∃ n, (bs.filter fun b => b.resource ∉ vs.map resource).map slot = List.range' vs.length n
  /-- Over both stages a resource has one slot, and a slot one resource. -/
  numbering : ∀ b ∈ vs ++ bs, ∀ c ∈ vs ++ bs, b.resource = c.resource ↔ b.slot = c.slot
  /-- Over both stages the slots are an initial segment. -/
  gapless : ∃ n, ∀ k, k ∈ (vs ++ bs).map slot ↔ k < n

/-- Slots that are shared extend those before. -/
theorem Shares.extends {vs rs : List Resource} {bs : List Binding} (h : Shares vs rs bs)
    (hvs : vs.Nodup) : Extends (consecutive 0 vs) rs bs := by
  have htable {b : Binding} : b ∈ consecutive 0 vs ++ bs ↔ b ∈ consecutive 0 (vs ++ rs).eraseDups :=
    mem_append.trans (h.mem_union hvs)
  have hnodup := nodup_eraseDups (vs ++ rs)
  refine ⟨?_, h.resources, ?_, ?_, ?_, ?_⟩
  · rw [h.resources]
    exact nodup_eraseDups rs
  · intro b hb v hv heq
    have hold := h.mem_of_mem_before hvs hb (heq ▸ resource_mem_of_mem_consecutive hv)
    rw [eq_of_resource_eq hvs hold hv heq]
  · refine ⟨(rs.removeAll vs).eraseDups.length, ?_⟩
    rw [map_resource_consecutive, length_consecutive, h.filter_eq hvs, map_slot_consecutive]
  · intro b hb c hc
    rw [htable] at hb hc
    constructor
    · intro heq
      rw [eq_of_resource_eq hnodup hb hc heq]
    · intro heq
      rw [eq_of_slot_eq hb hc heq]
  · refine ⟨(vs ++ rs).eraseDups.length, fun k => ?_⟩
    rw [mem_map]
    simp only [htable]
    rw [mem_slots_consecutive]
    omega

/-- The slots of a stage are words, if there are not too many of the stage before. -/
theorem Shares.slot_lt {vs rs : List Resource} {bs : List Binding} {b : Binding}
    (h : Shares vs rs bs) (hvs : vs.length ≤ wordLimit) (hb : b ∈ bs) : b.slot < wordLimit := by
  have hslot := (mem_slots_consecutive.1 ⟨b, h.subset hb, rfl⟩).2
  have hfits := h.fits
  rw [Nat.max_eq_left hvs] at hfits
  omega

end Binding

/-! ## The stage a task starts from -/

/-- Offloads that share one numbering: one by itself, or a fragment stage with a vertex stage. -/
inductive Module.Linked (m : Module) : List Offload → Prop where
  | alone {o : Offload} (ho : o ∈ m.groups) : Linked m [o]
  | pair {v o : Offload} (hv : v ∈ m.groups) (ho : o ∈ m.groups) (hvertex : v.kind = .vertexFor)
    (hfragment : o.kind = .fragmentFor) : Linked m [v, o]

namespace Compile

open Codegen

variable {m : Module} {signature : Signature} {config : Config} {ts before after : List Task}
  {t v : Task}

/-- The stage that a task starts from, given the tasks before it. -/
def startOf (before : List Task) (kind : OffloadKind) : Option Task :=
  if kind = .fragmentFor then latestVertex before else none

/-- **The origin of a task**: the offload at its place, generated from the stage it starts from. -/
theorem sequence_origin
    (h : sequence m signature config none m.groups = .ok (before ++ t :: after)) :
    ∃ o ∈ m.groups, m.groups[before.length]? = some o ∧ t.kind = o.kind ∧
      generate m o signature config (startOf before t.kind) = .ok t := by
  obtain ⟨past, o, future, hgroups, hlength, ht⟩ := sequence_split h
  have hkind := generate_kind ht
  refine ⟨o, by simp [hgroups], ?_, hkind, ?_⟩
  · rw [hgroups, ← hlength, List.getElem?_append_right (Nat.le_refl _), Nat.sub_self]
    rfl
  · rw [startOf, hkind]
    rwa [Option.or_none] at ht

/-- The stage to start from is a vertex task. -/
theorem mem_of_latestVertex (h : latestVertex ts = some v) : v ∈ ts ∧ v.kind = .vertexFor :=
  ⟨mem_reverse.1 (mem_of_find?_eq_some h), by simpa using List.find?_some h⟩

/-- A stage to start from counted its slots from zero, over the resources of a vertex stage. -/
theorem Follows.seed {o : Offload} {previous : Option Task} (ho : o ∈ m.groups)
    (h : Follows m signature config previous o) :
    ∃ (first : List Offload) (vs : List Resource), m.Linked (first ++ [o]) ∧
      vs = (first.flatMap m.uses).eraseDups ∧ vs.length ≤ wordLimit ∧
      Codegen.seed previous = Binding.consecutive 0 vs := by
  cases previous with
  | none => exact ⟨[], [], .alone ho, rfl, Nat.zero_le _, rfl⟩
  | some t =>
    obtain ⟨v, hv, hvertex, ht⟩ := h.1 t rfl
    have hfragment : o.kind = .fragmentFor := by
      by_contra hne
      cases h.2 hne
    refine ⟨[v], (m.uses v).eraseDups, .pair hv ho hvertex hfragment, by simp, ?_,
      bindings_of_generate hv ht⟩
    have hfits := (generate_shares hv nodup_nil rfl ht).fits
    rwa [nil_append, length_nil, Nat.max_eq_left (Nat.zero_le _)] at hfits

/-- Vertex stages start from nothing. -/
theorem follows_startOf {o : Offload} (hkind : t.kind = o.kind)
    (h : sequence m signature config none m.groups = .ok (before ++ t :: after)) :
    Follows m signature config (startOf before t.kind) o := by
  refine ⟨fun v hv => ?_, fun hne => ?_⟩
  · unfold startOf at hv
    split at hv
    · obtain ⟨hmem, hvertex⟩ := mem_of_latestVertex hv
      obtain ⟨first, second, rfl⟩ := append_of_mem hmem
      rw [List.append_assoc, cons_append] at h
      obtain ⟨q, hq, -, hsame, hgenerate⟩ := sequence_origin h
      rw [startOf, if_neg (by simp [hvertex])] at hgenerate
      exact ⟨q, hq, hsame.symm.trans hvertex, hgenerate⟩
    · cases hv
  · rw [startOf, hkind, if_neg hne]

/-- Every task shares its slots with the stage it starts from. -/
theorem sequence_shares
    (h : sequence m signature config none m.groups = .ok (before ++ t :: after)) :
    ∃ o ∈ m.groups, m.groups[before.length]? = some o ∧ t.kind = o.kind ∧
      ∃ vs : List Resource, vs.Nodup ∧ vs.length ≤ wordLimit ∧
        seed (startOf before t.kind) = Binding.consecutive 0 vs ∧
        Binding.Shares vs (m.uses o) t.bindings := by
  obtain ⟨o, ho, hat, hkind, hgenerate⟩ := sequence_origin h
  obtain ⟨first, vs, -, rfl, hlength, hseed⟩ := (follows_startOf hkind h).seed ho
  have hvs := nodup_eraseDups (first.flatMap m.uses)
  exact ⟨o, ho, hat, hkind, _, hvs, hlength, hseed, generate_shares ho hvs hseed hgenerate⟩

/-- **Every task extends the one it starts from.** -/
theorem sequence_extends
    (h : sequence m signature config none m.groups = .ok (before ++ t :: after)) :
    ∃ o ∈ m.groups, m.groups[before.length]? = some o ∧ t.kind = o.kind ∧
      Binding.Extends (seed (startOf before t.kind)) (m.uses o) t.bindings := by
  obtain ⟨o, ho, hat, hkind, vs, hvs, -, hseed, hshares⟩ := sequence_shares h
  exact ⟨o, ho, hat, hkind, hseed ▸ hshares.extends hvs⟩

/-- **Slots are words.** -/
theorem slot_lt_of_sequence (h : sequence m signature config none m.groups = .ok ts) (ht : t ∈ ts)
    {b : Binding} (hb : b ∈ t.bindings) : b.slot < wordLimit := by
  obtain ⟨before, after, rfl⟩ := append_of_mem ht
  obtain ⟨o, -, -, -, vs, -, hlength, -, hshares⟩ := sequence_shares h
  exact hshares.slot_lt hlength hb

end Compile

end WgslKernel
