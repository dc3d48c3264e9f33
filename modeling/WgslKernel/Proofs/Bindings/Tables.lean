import Mathlib.Logic.Function.Basic
import WgslKernel.Proofs.Bindings.Slots

/-!
# Maps of bindings under any history

A map of bindings is built by requests, each of which may be rejected.  `BindingMap.Lawful` is the
invariant that decides what is accepted.  `BindingMap.Indexed` is a map as it is kept for fast
look-ups, with a table from resources to slots beside the list; the two stay together, and a request
that is rejected changes neither.
-/

namespace WgslKernel

open List

namespace BindingMap

/-! ## Requests -/

/-- What can be asked of a map of bindings. -/
inductive Request where
  /-- Begin again without bindings. -/
  | renew
  /-- Begin again with the given bindings. -/
  | seed (bindings : List Binding)
  | add (r : Resource) (slot : Nat)
  /-- Attach a resource at the next slot. -/
  | addNext (r : Resource)
  deriving DecidableEq, Repr

/-- The map that a request leads to, unless it is rejected. -/
def answer (m : BindingMap) : Request → Except Fault BindingMap
  | .renew => .ok {}
  | .seed bindings => ofBindings bindings
  | .add r slot => m.add r slot
  | .addNext r => m.addNext r

/-- The map after a request.  One that is rejected leaves it as it is. -/
def after (m : BindingMap) (q : Request) : BindingMap :=
  match m.answer q with
  | .ok m' => m'
  | .error _ => m

/-- The map after a history of requests. -/
def history (qs : List Request) : BindingMap := qs.foldl after {}

/-! ## Laws of the list -/

/-- No resource and no slot is used twice. -/
structure Lawful (m : BindingMap) : Prop where
  resources : (m.bindings.map Binding.resource).Nodup
  slots : (m.bindings.map Binding.slot).Nodup

variable {m m' : BindingMap} {r : Resource} {slot : Nat} {bs : List Binding} {q : Request}

/-- An empty map is lawful. -/
theorem lawful_empty : Lawful {} := ⟨nodup_nil, nodup_nil⟩

theorem contains_iff : m.contains r = true ↔ r ∈ m.bindings.map Binding.resource := by
  rw [contains, Option.isSome_iff_ne_none, ne_eq, get?_eq_none]
  simp

/-- **A binding is accepted exactly if its resource and its slot are new.** -/
theorem add_eq_ok : m.add r slot = .ok m' ↔
    r ∉ m.bindings.map Binding.resource ∧ slot ∉ m.bindings.map Binding.slot ∧
      m' = ⟨m.bindings ++ [⟨r, slot⟩]⟩ := by
  have hany : (m.bindings.any fun b => b.slot == slot) = true ↔
      slot ∈ m.bindings.map Binding.slot := by simp
  unfold add
  split
  · rename_i hr
    simp [contains_iff.1 hr]
  · rename_i hr
    rw [contains_iff] at hr
    split
    · rename_i hslot
      simp [hany.1 hslot]
    · rename_i hslot
      rw [hany] at hslot
      simp only [hr, hslot, not_false_eq_true, true_and, Except.ok.injEq]
      exact eq_comm

/-- A binding is rejected for its resource or its slot. -/
theorem exists_add_error : (∃ f, m.add r slot = .error f) ↔
    r ∈ m.bindings.map Binding.resource ∨ slot ∈ m.bindings.map Binding.slot := by
  have hok : (∃ f, m.add r slot = .error f) ↔ ¬ ∃ m', m.add r slot = .ok m' := by
    cases m.add r slot <;> simp
  simp only [hok, add_eq_ok, exists_and_left, exists_eq, and_true]
  tauto

theorem lawful_append {cs : List Binding} (h : Lawful ⟨bs ++ cs⟩) : Lawful ⟨bs⟩ := by
  obtain ⟨hr, hs⟩ := h
  rw [map_append] at hr hs
  exact ⟨hr.of_append_left, hs.of_append_left⟩

/-- One more binding is lawful if it uses nothing twice. -/
theorem lawful_concat :
    Lawful ⟨m.bindings ++ [⟨r, slot⟩]⟩ ↔ m.Lawful ∧ r ∉ m.bindings.map Binding.resource ∧
      slot ∉ m.bindings.map Binding.slot := by
  constructor
  · intro h
    have hm : m.Lawful := lawful_append h
    obtain ⟨hr, hs⟩ := h
    simp only [map_append, map_singleton, nodup_append, mem_singleton] at hr hs
    exact ⟨hm, fun hmem => hr.2.2 r hmem r rfl rfl, fun hmem => hs.2.2 slot hmem slot rfl rfl⟩
  · rintro ⟨h, hr, hs⟩
    constructor
    · simpa using h.resources.concat hr
    · simpa using h.slots.concat hs

/-- Bindings are accepted one after the other exactly if they are lawful together. -/
theorem foldlM_add_eq_ok (h : m.Lawful) :
    bs.foldlM (fun (m : BindingMap) b => m.add b.resource b.slot) m = .ok m' ↔
      Lawful ⟨m.bindings ++ bs⟩ ∧ m' = ⟨m.bindings ++ bs⟩ := by
  induction bs generalizing m with
  | nil =>
    rw [append_nil, foldlM_nil]
    constructor
    · intro hm
      cases hm
      exact ⟨h, rfl⟩
    · rintro ⟨-, rfl⟩
      rfl
  | cons b bs ih =>
    rw [foldlM_cons, bind_eq_ok, append_cons]
    constructor
    · rintro ⟨a, ha, hrest⟩
      obtain ⟨hr, hs, rfl⟩ := add_eq_ok.1 ha
      exact (ih (lawful_concat.2 ⟨h, hr, hs⟩)).1 hrest
    · rintro ⟨hall, rfl⟩
      have hb : Lawful ⟨m.bindings ++ [b]⟩ := lawful_append hall
      obtain ⟨-, hr, hs⟩ := lawful_concat.1 hb
      exact ⟨_, add_eq_ok.2 ⟨hr, hs, rfl⟩, (ih hb).2 ⟨hall, rfl⟩⟩

/-- **A list of bindings is taken over exactly if it is lawful**, and as it is. -/
theorem ofBindings_eq_ok : ofBindings bs = .ok m ↔ Lawful ⟨bs⟩ ∧ m = ⟨bs⟩ :=
  foldlM_add_eq_ok lawful_empty

theorem Lawful.answer (h : m.Lawful) (hm : m.answer q = .ok m') : m'.Lawful := by
  have hadd {r : Resource} {slot : Nat} (hm : m.add r slot = .ok m') : m'.Lawful := by
    obtain ⟨hr, hs, rfl⟩ := add_eq_ok.1 hm
    exact lawful_concat.2 ⟨h, hr, hs⟩
  cases q with
  | renew =>
    cases hm
    exact lawful_empty
  | seed bs =>
    obtain ⟨hbs, rfl⟩ := ofBindings_eq_ok.1 hm
    exact hbs
  | add r slot => exact hadd hm
  | addNext r =>
    obtain ⟨slot, -, hm⟩ := bind_eq_ok.1 hm
    exact hadd hm

/-- A request keeps the law, accepted or not. -/
theorem Lawful.after (h : m.Lawful) (q : Request) : (m.after q).Lawful := by
  unfold BindingMap.after
  split
  · rename_i m' hm
    exact h.answer hm
  · exact h

/-- Every history is lawful. -/
theorem lawful_history (qs : List Request) : (history qs).Lawful := by
  suffices h : ∀ m : BindingMap, m.Lawful → (qs.foldl BindingMap.after m).Lawful from
    h {} lawful_empty
  induction qs with
  | nil => exact fun _ h => h
  | cons q qs ih => exact fun m h => ih _ (h.after q)

theorem Lawful.get?_eq_some (h : m.Lawful) : m.get? r = some slot ↔ ⟨r, slot⟩ ∈ m.bindings := by
  refine ⟨mem_of_get?, fun hmem => ?_⟩
  cases hget : m.get? r with
  | none => exact absurd rfl (get?_eq_none.1 hget _ hmem)
  | some k =>
    have hk : (⟨r, k⟩ : Binding) = ⟨r, slot⟩ :=
      inj_on_of_nodup_map h.resources (mem_of_get? hget) hmem rfl
    cases hk
    rfl

theorem foldl_le {n k : Nat} (hn : n ≤ k) (h : ∀ b ∈ bs, b.slot < k) :
    bs.foldl (fun next b => max next (b.slot + 1)) n ≤ k := by
  induction bs generalizing n with
  | nil => exact hn
  | cons b bs ih =>
    obtain ⟨hb, hbs⟩ := forall_mem_cons.1 h
    exact ih (Nat.max_le.2 ⟨hn, hb⟩) hbs

/-- The first free slot is one more than the largest slot. -/
theorem firstFree_eq {b : Binding} (hb : b ∈ m.bindings)
    (hmax : ∀ c ∈ m.bindings, c.slot ≤ b.slot) : m.firstFree = b.slot + 1 := by
  have hlt := (slot_lt_foldl m.bindings 0).2 b hb
  have hle : m.firstFree ≤ b.slot + 1 :=
    foldl_le (by omega) fun c hc => Nat.lt_succ_of_le (hmax c hc)
  exact Nat.le_antisymm hle hlt

/-- The next slot is above all others. -/
theorem slot_lt_of_nextSlot (h : m.nextSlot = .ok slot) {b : Binding} (hb : b ∈ m.bindings) :
    b.slot < slot := by
  rw [nextSlot_eq] at h
  split at h
  · cases h
    exact (slot_lt_foldl m.bindings 0).2 b hb
  · cases h

/-! ## Maps with a table -/

/-- A map of bindings that keeps them twice: as a list, and as a table from resources to slots. -/
structure Indexed extends BindingMap where
  table : Resource → Option Nat := fun _ => none

/-- A map with the table that its list gives. -/
def indexed (m : BindingMap) : Indexed := ⟨m, m.get?⟩

@[simp] theorem indexed_toBindingMap (m : BindingMap) : m.indexed.toBindingMap = m := rfl

@[simp] theorem indexed_table (m : BindingMap) : m.indexed.table = m.get? := rfl

namespace Indexed

/-- Attach a resource at a slot, if the table lacks the resource and the list the slot. -/
def add (r : Resource) (slot : Nat) : ExceptT Fault (StateM Indexed) Unit := do
  let x ← get
  if (x.table r).isSome then throw (.alreadyBound r.name)
  else if x.bindings.any (fun b => b.slot == slot) then throw (.slotTaken slot)
  else
    modify fun x => { x with table := Function.update x.table r (some slot) }
    modify fun x => { x with bindings := x.bindings ++ [⟨r, slot⟩] }

/-- Do as a request says.  A new map is filled before it takes the place of the old one. -/
def request : Request → ExceptT Fault (StateM Indexed) Unit
  | .renew => set ({} : Indexed)
  | .seed bindings => do
    match (bindings.forM fun b => add b.resource b.slot).run.run {} with
    | (.ok (), x) => set x
    | (.error f, _) => throw f
  | .add r slot => add r slot
  | .addNext r => do
    match (← get).nextSlot with
    | .ok slot => add r slot
    | .error f => throw f

/-- The map after a history of requests, rejected ones included. -/
def history (qs : List Request) : Indexed :=
  qs.foldl (fun x q => ((request q).run.run x).2) {}

/-- What a request to a map with a table gives: a reply, and the map then. -/
def settled (m : BindingMap) : Except Fault BindingMap → Except Fault Unit × Indexed
  | .ok m' => (.ok (), m'.indexed)
  | .error f => (.error f, m.indexed)

/-- The look-up after one more binding. -/
theorem get?_concat (h : r ∉ m.bindings.map Binding.resource) :
    get? ⟨m.bindings ++ [⟨r, slot⟩]⟩ = Function.update m.get? r (some slot) := by
  funext k
  simp only [get?, List.find?_append]
  by_cases hk : k = r
  · subst hk
    have hnone : (m.bindings.find? fun b => b.resource = k) = none := by simpa using h
    rw [hnone, Function.update_self]
    simp
  · rw [Function.update_of_ne hk]
    simp [Ne.symm hk, get?]

/-- Adding, as one step: a rejected binding changes neither the table nor the list. -/
theorem add_run (x : Indexed) (r : Resource) (slot : Nat) :
    (add r slot).run.run x =
      if (x.table r).isSome then (.error (.alreadyBound r.name), x)
      else if x.bindings.any (fun b => b.slot == slot) then (.error (.slotTaken slot), x)
      else (.ok (), ⟨⟨x.bindings ++ [⟨r, slot⟩]⟩, Function.update x.table r (some slot)⟩) := by
  change (ite _ _ (ite _ _ _) : ExceptT Fault (StateM Indexed) Unit).run.run x = _
  split
  · rfl
  · split <;> rfl

/-- Where the table is the look-up of the list, adding answers as the list does and keeps it so. -/
theorem add_eq (m : BindingMap) (r : Resource) (slot : Nat) :
    (add r slot).run.run m.indexed = settled m (m.add r slot) := by
  rw [add_run, BindingMap.add, contains, indexed_table, indexed_toBindingMap]
  by_cases hr : (m.get? r).isSome
  · rw [if_pos hr, if_pos hr, settled]
  · rw [if_neg hr, if_neg hr]
    have hnew : r ∉ m.bindings.map Binding.resource := fun hmem => hr (contains_iff.2 hmem)
    split
    · rfl
    · rw [settled, indexed, get?_concat hnew]

theorem forM_add_cons (x : Indexed) (b : Binding) (bs : List Binding) :
    ((b :: bs).forM fun b => add b.resource b.slot).run.run x =
      match (add b.resource b.slot).run.run x with
      | (.ok (), y) => (bs.forM fun b => add b.resource b.slot).run.run y
      | (.error f, y) => (.error f, y) := by
  rw [forM_eq_forM, forM_cons, ExceptT.run_bind, StateT.run_bind]
  rcases (add b.resource b.slot).run.run x with ⟨_ | ⟨⟩, y⟩ <;> rfl

/-- Filling a map answers as folding over its list does. -/
theorem forM_add_eq (m : BindingMap) (bs : List Binding) :
    match bs.foldlM (fun (m : BindingMap) b => m.add b.resource b.slot) m with
    | .ok m' => (bs.forM fun b => add b.resource b.slot).run.run m.indexed = (.ok (), m'.indexed)
    | .error f =>
      ∃ x, (bs.forM fun b => add b.resource b.slot).run.run m.indexed = (.error f, x) := by
  induction bs generalizing m with
  | nil => rfl
  | cons b bs ih =>
    rw [foldlM_cons, forM_add_cons, add_eq]
    cases m.add b.resource b.slot with
    | ok m' => exact ih m'
    | error f => exact ⟨_, rfl⟩

/-- **A map with a table answers as the list alone does**, and the two stay together. -/
theorem request_eq (m : BindingMap) (q : Request) :
    (request q).run.run m.indexed = settled m (m.answer q) := by
  cases q with
  | renew => rfl
  | seed bs =>
    have hfill := forM_add_eq {} bs
    change (match (bs.forM fun b => add b.resource b.slot).run.run (indexed {}) with
      | (.ok (), x) => set x
      | (.error f, _) => throw f : ExceptT Fault (StateM Indexed) Unit).run.run m.indexed = _
    rw [answer, ofBindings]
    split at hfill
    · rename_i m' hm
      rw [hm, hfill]
      rfl
    · rename_i f hm
      obtain ⟨x, hx⟩ := hfill
      rw [hm, hx]
      rfl
  | add r slot => exact add_eq m r slot
  | addNext r =>
    change (match m.nextSlot with
      | .ok slot => add r slot
      | .error f => throw f : ExceptT Fault (StateM Indexed) Unit).run.run m.indexed = _
    rw [answer, BindingMap.addNext]
    cases m.nextSlot with
    | ok slot => exact add_eq m r slot
    | error f => rfl

/-- The table along a history. -/
theorem history_eq (qs : List Request) : history qs = (BindingMap.history qs).indexed := by
  have hstep (m : BindingMap) (q : Request) :
      ((request q).run.run m.indexed).2 = (m.after q).indexed := by
    rw [request_eq, BindingMap.after]
    cases m.answer q <;> rfl
  suffices h : ∀ m : BindingMap,
      qs.foldl (fun x q => ((request q).run.run x).2) m.indexed =
        (qs.foldl BindingMap.after m).indexed from h {}
  induction qs with
  | nil => exact fun _ => rfl
  | cons q qs ih =>
    intro m
    rw [foldl_cons, hstep, ih, foldl_cons]

end Indexed

/-- **What holds of a map of bindings after any history of requests**, accepted and rejected.

The list and the table hold the same bindings, and the map is the same as without the table; no
resource and no slot is used twice.  The next slot is the first one in an empty map and otherwise
one more than the largest slot, as long as that is a word; with the largest word in use there is
none.  So the next slot is never in use.  A binding is rejected exactly if its resource or its slot
is in use, which changes neither list nor table, and otherwise comes last.  A map is begun with a
list of bindings exactly if that uses no resource and no slot twice, and then it has this list. -/
theorem history_lawful (qs : List Request) :
    let m := history qs
    let x := Indexed.history qs
    (x.bindings = m.bindings ∧ ∀ r s, x.table r = some s ↔ ⟨r, s⟩ ∈ x.bindings) ∧
    (∀ r s, m.get? r = some s ↔ ⟨r, s⟩ ∈ m.bindings) ∧
    (m.bindings.map Binding.resource).Nodup ∧ (m.bindings.map Binding.slot).Nodup ∧
    (m.bindings = [] → m.nextSlot = .ok 0) ∧
    (∀ b ∈ m.bindings, (∀ c ∈ m.bindings, c.slot ≤ b.slot) →
      m.nextSlot = if b.slot + 1 < wordLimit then .ok (b.slot + 1) else .error .additionOverflow) ∧
    (∀ n, m.nextSlot = .ok n → ∀ b ∈ m.bindings, b.slot ≠ n) ∧
    (∀ r s, (∃ f, m.add r s = .error f) ↔ ∃ b ∈ m.bindings, b.resource = r ∨ b.slot = s) ∧
    (∀ r s f, m.add r s = .error f → (Indexed.add r s).run.run x = (.error f, x)) ∧
    (∀ r s m', m.add r s = .ok m' → m'.bindings = m.bindings ++ [⟨r, s⟩] ∧
      (Indexed.add r s).run.run x = (.ok (), m'.indexed)) ∧
    ∀ bs, ((∃ m', ofBindings bs = .ok m') ↔
        (bs.map Binding.resource).Nodup ∧ (bs.map Binding.slot).Nodup) ∧
      ∀ m', ofBindings bs = .ok m' → m'.bindings = bs := by
  intro m x
  have h : m.Lawful := lawful_history qs
  have hx : x = m.indexed := Indexed.history_eq qs
  have hrun (r : Resource) (s : Nat) :
      (Indexed.add r s).run.run x = Indexed.settled m (m.add r s) :=
    hx ▸ Indexed.add_eq m r s
  refine ⟨⟨by rw [hx]; rfl, fun r s => ?_⟩, fun r s => h.get?_eq_some, h.resources, h.slots,
    fun hnil => ?_, fun b hb hmax => ?_, fun n hn b hb => Nat.ne_of_lt (slot_lt_of_nextSlot hn hb),
    fun r s => ?_, fun r s f hf => ?_, fun r s m' hm => ?_, fun bs => ⟨⟨?_, ?_⟩, ?_⟩⟩
  · rw [hx]
    exact h.get?_eq_some
  · rw [nextSlot_eq, firstFree, hnil]
    rfl
  · rw [nextSlot_eq, firstFree_eq hb hmax]
  · rw [exists_add_error]
    simp only [mem_map]
    grind
  · rw [hrun, hf, hx]
    rfl
  · obtain ⟨-, -, rfl⟩ := add_eq_ok.1 hm
    exact ⟨rfl, by rw [hrun, hm]; rfl⟩
  · rintro ⟨m', hm⟩
    obtain ⟨hbs, -⟩ := ofBindings_eq_ok.1 hm
    exact ⟨hbs.resources, hbs.slots⟩
  · rintro ⟨hr, hs⟩
    exact ⟨_, ofBindings_eq_ok.2 ⟨⟨hr, hs⟩, rfl⟩⟩
  · intro m' hm
    rw [(ofBindings_eq_ok.1 hm).2]

/-- The largest word can be the next slot; then a map that is not empty has no next slot. -/
theorem not_nextSlot_above :
    ¬ ∀ qs : List Request, (∀ r s, .add r s ∈ qs → s < wordLimit - 1) → (∀ bs, .seed bs ∉ qs) →
      ∀ b ∈ (history qs).bindings, (∀ c ∈ (history qs).bindings, c.slot ≤ b.slot) →
        (history qs).nextSlot = .ok (b.slot + 1) := by
  intro h
  have hlast := h [.add (.root 1) 4294967294, .addNext (.root 2)] (by simp [wordLimit]) (by simp)
    ⟨.root 2, 4294967295⟩ (by decide) (by decide)
  revert hlast
  decide

end BindingMap

end WgslKernel
