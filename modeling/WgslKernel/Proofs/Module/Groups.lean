import Mathlib.Data.List.TakeWhile
import WgslKernel.Proofs.Module.Offload

/-!
# The split of a module into offloads

A list `Splits` into groups when the groups make up the list, an element that stands alone is a
group by itself, the other groups are runs of elements that do not, and no two runs are neighbours.
There is one such split, and the pass over the top level finds it.
-/

namespace WgslKernel

open List

/-! ## Splits -/

/-- A list cut into elements that stand alone and the runs between them. -/
structure Splits {α : Type} (alone : α → Bool) (l : List α) (groups : List (List α)) : Prop where
  whole : groups.flatten = l
  uniform : ∀ g ∈ groups, (∃ a, alone a = true ∧ g = [a]) ∨ g ≠ [] ∧ ∀ a ∈ g, alone a = false
  /-- Of two neighbours one stands alone, so runs are as long as they can be. -/
  apart : groups.IsChain fun g h => (∃ a ∈ g, alone a = true) ∨ ∃ a ∈ h, alone a = true

namespace Splits

variable {α : Type} {alone : α → Bool} {l run : List α} {a : α} {g : List α}
  {groups : List (List α)}

theorem nil : Splits alone [] [] := ⟨rfl, by simp, .nil⟩

theorem ne_nil (h : Splits alone l groups) (hg : g ∈ groups) : g ≠ [] := by
  rcases h.uniform g hg with ⟨a, -, rfl⟩ | ⟨hne, -⟩
  · simp
  · exact hne

theorem tail (h : Splits alone l (g :: groups)) : Splits alone groups.flatten groups :=
  ⟨rfl, fun k hk => h.uniform k (mem_cons_of_mem _ hk), h.apart.of_cons⟩

/-- An element that stands alone can be put in front of any split. -/
theorem consAlone (h : Splits alone l groups) (ha : alone a = true) :
    Splits alone (a :: l) ([a] :: groups) := by
  refine ⟨by simp [h.whole], ?_, ?_⟩
  · rintro g (_ | ⟨_, hg⟩)
    · exact .inl ⟨a, ha, rfl⟩
    · exact h.uniform g hg
  · cases groups with
    | nil => exact .singleton _
    | cons g groups => exact .cons_cons (.inl ⟨a, mem_cons_self, ha⟩) h.apart

/-- A run can be put in front of a split that begins with an element standing alone. -/
theorem consRun (h : Splits alone (a :: l) ([a] :: groups)) (ha : alone a = true) (hne : run ≠ [])
    (hrun : ∀ b ∈ run, alone b = false) :
    Splits alone (run ++ a :: l) (run :: [a] :: groups) := by
  refine ⟨by rw [flatten_cons, h.whole], ?_, ?_⟩
  · rintro g (_ | ⟨_, hg⟩)
    · exact .inr ⟨hne, hrun⟩
    · exact h.uniform g hg
  · exact .cons_cons (.inr ⟨a, mem_cons_self, ha⟩) h.apart

theorem ofRun (hne : run ≠ []) (hrun : ∀ b ∈ run, alone b = false) : Splits alone run [run] :=
  ⟨by simp, by simpa using .inr ⟨hne, hrun⟩, .singleton _⟩

/-- The first group, read off the list. -/
theorem head_eq (h : Splits alone l (g :: groups)) :
    (∃ a rest, l = a :: rest ∧ alone a = true ∧ g = [a]) ∨
      (∃ a rest, l = a :: rest ∧ alone a = false) ∧ g = l.takeWhile fun a => !alone a := by
  have hl : l = g ++ groups.flatten := by rw [← h.whole, flatten_cons]
  rcases h.uniform g mem_cons_self with ⟨a, ha, rfl⟩ | ⟨hne, hrun⟩
  · exact .inl ⟨a, _, hl, ha, rfl⟩
  · refine .inr ⟨?_, ?_⟩
    · obtain ⟨a, rest, rfl⟩ := exists_cons_of_ne_nil hne
      exact ⟨a, _, hl, hrun a mem_cons_self⟩
    · -- Behind the run is nothing, or an element that stands alone.
      have hstop : groups.flatten.takeWhile (fun a => !alone a) = [] := by
        cases groups with
        | nil => rfl
        | cons k groups =>
          obtain ⟨a, hak, ha⟩ : ∃ a ∈ k, alone a = true := by
            rcases (isChain_cons_cons.1 h.apart).1 with ⟨b, hb, halone⟩ | hk
            · rw [hrun b hb] at halone
              cases halone
            · exact hk
          rcases h.uniform k (by simp) with ⟨b, hb, rfl⟩ | ⟨-, hk⟩
          · simp [hb]
          · rw [hk a hak] at ha
            cases ha
      rw [hl, takeWhile_append_of_pos (by simpa using hrun), hstop, append_nil]

/-- **A list splits in one way only.** -/
theorem unique {groups' : List (List α)} (h : Splits alone l groups)
    (h' : Splits alone l groups') : groups = groups' := by
  induction groups generalizing l groups' with
  | nil =>
    cases groups' with
    | nil => rfl
    | cons k groups' =>
      have hl : k ++ groups'.flatten = [] := by rw [← flatten_cons, h'.whole, ← h.whole]; rfl
      exact absurd (append_eq_nil_iff.1 hl).1 (h'.ne_nil mem_cons_self)
  | cons g groups ih =>
    cases groups' with
    | nil =>
      have hl : g ++ groups.flatten = [] := by rw [← flatten_cons, h.whole, ← h'.whole]; rfl
      exact absurd (append_eq_nil_iff.1 hl).1 (h.ne_nil mem_cons_self)
    | cons k groups' =>
      have hgk : g = k := by
        rcases h.head_eq with ⟨a, rest, hl, ha, rfl⟩ | ⟨⟨a, rest, hl, ha⟩, hg⟩ <;>
          rcases h'.head_eq with ⟨b, rest', hl', hb, rfl⟩ | ⟨⟨b, rest', hl', hb⟩, hk⟩
        · rw [hl] at hl'
          cases hl'
          rfl
        · rw [hl] at hl'
          cases hl'
          rw [ha] at hb
          cases hb
        · rw [hl] at hl'
          cases hl'
          rw [ha] at hb
          cases hb
        · rw [hg, hk]
      subst hgk
      have hrest : groups.flatten = groups'.flatten := by
        refine append_cancel_left (?_ : g ++ groups.flatten = g ++ groups'.flatten)
        rw [← flatten_cons, ← flatten_cons, h.whole, h'.whole]
      rw [ih h.tail (hrest ▸ h'.tail)]

end Splits

/-! ## The groups of a module -/

/-- Statements dispatched on their own: loops that are not serialized, and graphics stages. -/
def Kind.alone : Kind → Bool
  | .rangeFor _ serial _ => !serial
  | .vertexFor _ | .fragmentFor _ => true
  | _ => false

/-- What stands alone is dispatched alone. -/
theorem Kind.alone_eq (kind : Kind) : kind.alone = (OffloadKind.standalone? kind).isSome := by
  cases kind with
  | rangeFor bound serial body => cases serial <;> rfl
  | _ => rfl

theorem Kind.standalone?_ne_serial (kind : Kind) : OffloadKind.standalone? kind ≠ some .serial := by
  cases kind with
  | rangeFor bound serial body => cases serial <;> simp [OffloadKind.standalone?]
  | _ => simp [OffloadKind.standalone?]

namespace Module

variable {m : Module} {o : Offload} {i : StmtId}

/-- The statements of the root block that are not constants. -/
def topLevel (m : Module) : List StmtId :=
  (m.blockStmts rootBlock).filter fun i => (m.kind? i).any fun kind => !kind.isConst

/-- Whether statement `i` is dispatched on its own. -/
def alone (m : Module) (i : StmtId) : Bool := (m.kind? i).any Kind.alone

/-- The pass splits what it is given. -/
theorem splits_groupsFrom {run ids : List StmtId} (hrun : ∀ i ∈ run, m.alone i = false) :
    Splits m.alone (run ++ ids.filter fun i => (m.kind? i).any fun kind => !kind.isConst)
      ((m.groupsFrom run ids).map Offload.stmts) := by
  induction ids generalizing run with
  | nil =>
    rw [groupsFrom, flushRun, filter_nil, append_nil]
    split
    · rename_i hnil
      subst hnil
      exact .nil
    · exact .ofRun ‹_› hrun
  | cons i ids ih =>
    rw [groupsFrom]
    split
    · rename_i hkind
      rw [filter_cons_of_neg (by simp [hkind])]
      exact ih hrun
    · rename_i kind hkind
      split
      · rename_i hconst
        rw [filter_cons_of_neg (by simp [hkind, hconst])]
        exact ih hrun
      · rename_i hconst
        rw [filter_cons_of_pos (by simp [hkind, hconst])]
        split
        · rename_i k hk
          have halone : m.alone i = true := by simp [alone, hkind, Kind.alone_eq, hk]
          have hrest := (@ih [] (by simp)).consAlone halone
          rw [flushRun]
          split
          · rename_i hnil
            subst hnil
            exact hrest
          · exact hrest.consRun halone ‹_› hrun
        · rename_i hk
          have halone : m.alone i = false := by simp [alone, hkind, Kind.alone_eq, hk]
          have hrun' : ∀ j ∈ run ++ [i], m.alone j = false := by
            intro j hj
            rcases mem_append.1 hj with hj | hj
            · exact hrun j hj
            · rw [mem_singleton.1 hj]
              exact halone
          simpa using ih hrun'

/-- **The groups of a module are the split of its top level.** -/
theorem splits_groups (m : Module) : Splits m.alone m.topLevel (m.groups.map Offload.stmts) :=
  splits_groupsFrom fun _ hi => absurd hi not_mem_nil

theorem serial_of_mem_groupsFrom {run ids : List StmtId} (hrun : ∀ i ∈ run, m.alone i = false)
    (ho : o ∈ m.groupsFrom run ids) (hserial : o.kind = .serial) :
    ∀ i ∈ o.stmts, m.alone i = false := by
  induction ids generalizing run with
  | nil =>
    rw [mem_flushRun ho]
    exact hrun
  | cons id ids ih =>
    rw [groupsFrom] at ho
    split at ho
    · exact ih hrun ho
    · rename_i kind hkind
      split at ho
      · exact ih hrun ho
      · split at ho
        · rename_i k hk
          rcases mem_append.1 ho with ho | ho
          · rw [mem_flushRun ho]
            exact hrun
          rcases mem_cons.1 ho with rfl | ho
          · obtain rfl : k = .serial := hserial
            exact absurd hk kind.standalone?_ne_serial
          · exact ih (by simp) ho
        · rename_i hk
          refine ih (fun i hi => ?_) ho
          rcases mem_append.1 hi with hi | hi
          · exact hrun i hi
          · simp [mem_singleton.1 hi, alone, hkind, Kind.alone_eq, hk]

/-- The kind of a group is the one its statements have by themselves. -/
theorem Inv.detectKind_of_mem_groups (h : m.Inv) (ho : o ∈ m.groups) :
    m.detectKind o.stmts = .ok o.kind := by
  rcases standalone_of_mem_groups ho with hserial | ⟨i, kind, hstmts, hkind, hk⟩
  · have hrun := serial_of_mem_groupsFrom (by simp) ho hserial
    rw [hserial, detectKind.eq_def]
    split
    · rename_i i hstmts
      obtain ⟨s, hs⟩ := h.found_of_mem_groups (i := i) ho (by simp [hstmts])
      have hnone : OffloadKind.standalone? s.kind = none := by
        have halone := hrun i (by simp [hstmts])
        simpa [alone, kind?, hs, Kind.alone_eq] using halone
      exact bind_eq_ok.2 ⟨s, stmt_eq_ok.2 hs, by rw [hnone, Option.getD_none]⟩
    · rfl
  · obtain ⟨s, hs, rfl⟩ := Option.map_eq_some_iff.1 hkind
    rw [hstmts]
    exact bind_eq_ok.2 ⟨s, stmt_eq_ok.2 hs, by rw [hk, Option.getD_some]⟩

end Module

end WgslKernel
