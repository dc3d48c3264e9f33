import WgslKernel.Proofs.Codegen.Table
import WgslKernel.Proofs.Semantics.Shader

/-!
# Names in scope

A statement adds names of its own, a variable is given another value, and a body that ends takes its
names away; none of this touches a name that belongs to another statement.
-/

namespace WgslKernel

open List

namespace Locals

variable {l l' l'' : Locals} {n : Ident} {ids : List StmtId}

/-! ## Looking up -/

@[simp] theorem get?_nil (n : Ident) : get? [] n = none := rfl

theorem get?_cons (slot : Slot) (l : Locals) (n : Ident) :
    get? (slot :: l) n = if slot.name = n then some slot else get? l n := by
  by_cases h : slot.name = n <;> simp [get?, h]

@[simp] theorem get?_cons_self (slot : Slot) (l : Locals) :
    get? (slot :: l) slot.name = some slot := by
  rw [get?_cons, if_pos rfl]

theorem get?_cons_of_ne {slot : Slot} (h : slot.name ≠ n) : get? (slot :: l) n = get? l n := by
  rw [get?_cons, if_neg h]

theorem get?_drop (k : Nat) (h : ∀ slot ∈ l.take k, slot.name ≠ n) :
    get? (l.drop k) n = l.get? n := by
  induction k generalizing l with
  | zero => rfl
  | succ k ih =>
    cases l with
    | nil => rfl
    | cons slot l =>
      have hne : slot.name ≠ n := h slot (by simp)
      rw [drop_succ_cons, get?_cons_of_ne hne]
      exact ih fun slot hslot => h slot (by simp [hslot])

/-- The names in scope, innermost first. -/
def names (l : Locals) : List Ident := l.map Slot.name

@[simp] theorem names_cons (slot : Slot) (l : Locals) :
    names (slot :: l) = slot.name :: names l := rfl

/-- A variable can be given a value of its type, and nothing else changes. -/
theorem assign_of_get? {slot : Slot} {d : Datum} (h : l.get? n = some slot)
    (hvar : slot.isVar = true) (hd : d.sameType slot.value = true) :
    ∃ l', l.assign n d = some l' ∧ names l' = names l ∧
      l'.get? n = some { slot with value := d } ∧ ∀ n', n' ≠ n → l'.get? n' = l.get? n' := by
  induction l with
  | nil => simp at h
  | cons s l ih =>
    by_cases hs : s.name = n
    · rw [get?_cons, if_pos hs] at h
      cases h
      subst hs
      refine ⟨{ slot with value := d } :: l, by simp [assign, hvar, hd], rfl, ?_, fun n' hn' => ?_⟩
      · exact get?_cons_self _ _
      · simp [get?_cons, hn'.symm]
    · rw [get?_cons_of_ne hs] at h
      obtain ⟨l', hl', hnames, hget, hrest⟩ := ih h
      refine ⟨s :: l', by simp [assign, hs, hl'], by simp [hnames], ?_, fun n' hn' => ?_⟩
      · rw [get?_cons_of_ne hs, hget]
      · rw [get?_cons, get?_cons, hrest n' hn']

/-! ## Adding names -/

/-- The names in scope are those there were, and more that belong to the given statements. -/
def Grows (ids : List StmtId) (l l' : Locals) : Prop :=
  ∃ added : List Ident, l'.names = added ++ l.names ∧ ∀ n ∈ added, ∃ y ∈ ids, n.owner? = some y

theorem Grows.refl : Grows ids l l := ⟨[], rfl, by simp⟩

theorem Grows.of_names (h : l'.names = l.names) : Grows ids l l' := ⟨[], h, by simp⟩

theorem Grows.declare {slot : Slot} {y : StmtId} (hy : y ∈ ids) (hs : slot.name.owner? = some y) :
    Grows ids l (slot :: l) := ⟨[slot.name], rfl, by simpa using ⟨y, hy, hs⟩⟩

theorem Grows.trans (h : Grows ids l l') (h' : Grows ids l' l'') : Grows ids l l'' := by
  obtain ⟨added, hnames, hadded⟩ := h
  obtain ⟨added', hnames', hadded'⟩ := h'
  refine ⟨added' ++ added, by rw [hnames', hnames, List.append_assoc], fun n hn => ?_⟩
  rcases mem_append.1 hn with hn | hn
  · exact hadded' n hn
  · exact hadded n hn

theorem Grows.mono {ids' : List StmtId} (h : Grows ids l l') (hsub : ∀ y ∈ ids, y ∈ ids') :
    Grows ids' l l' := by
  obtain ⟨added, hnames, hadded⟩ := h
  refine ⟨added, hnames, fun n hn => ?_⟩
  obtain ⟨y, hy, howner⟩ := hadded n hn
  exact ⟨y, hsub y hy, howner⟩

theorem length_sub_of_names {added : List Ident} (h : l'.names = added ++ l.names) :
    l'.length - l.length = added.length := by
  have hlen : l'.length = added.length + l.length := by
    simpa [names] using congrArg List.length h
  omega

/-- The names that are left when the added ones are dropped. -/
theorem Grows.names_drop (h : Grows ids l l') :
    names (l'.drop (l'.length - l.length)) = l.names := by
  obtain ⟨added, hnames, -⟩ := h
  have hmap : names (l'.drop added.length) = l'.names.drop added.length := map_drop
  rw [length_sub_of_names hnames, hmap, hnames, drop_left]

/-- Dropping the added names hides none that belongs to another statement. -/
theorem Grows.get?_drop (h : Grows ids l l') (hn : ∀ y ∈ ids, n.owner? ≠ some y) :
    get? (l'.drop (l'.length - l.length)) n = l'.get? n := by
  obtain ⟨added, hnames, hadded⟩ := h
  rw [length_sub_of_names hnames]
  refine Locals.get?_drop _ fun slot hslot heq => ?_
  have hmem : slot.name ∈ added := by
    have htake : (l'.take added.length).map Slot.name = l'.names.take added.length := map_take
    rw [hnames, take_left] at htake
    exact htake ▸ mem_map_of_mem hslot
  obtain ⟨y, hy, howner⟩ := hadded _ hmem
  exact hn y hy (heq ▸ howner)

end Locals

namespace Store

variable {outer st : Store} {ids : List StmtId}

@[simp] theorem leave_memory : (outer.leave st).memory = st.memory := rfl

theorem names_leave (h : Locals.Grows ids outer.locals st.locals) :
    (outer.leave st).locals.names = outer.locals.names := h.names_drop

/-- Names from outside survive a block. -/
theorem get?_leave (h : Locals.Grows ids outer.locals st.locals) {n : Ident}
    (hn : ∀ y ∈ ids, n.owner? ≠ some y) : (outer.leave st).locals.get? n = st.locals.get? n :=
  h.get?_drop hn

end Store

end WgslKernel
