import Mathlib.Algebra.Order.Ring.Int
import Mathlib.Data.List.Nodup
import Mathlib.Data.List.Sort

/-!
# Strides over an iteration space

Worker `i` starts at index `i` and strides by the number of all workers, until its counter is no
longer below the bound.  As long as no counter wraps around, the workers take the residue classes of
the indices.  A counter without room for one more stride wraps around to a negative value, which is
below the bound again.
-/

namespace WgslKernel

open List

/-- The values that a counter takes below `stop`, going on by `step` from turn to turn. -/
inductive Strides (stop step : Int32) : Int32 → List Int32 → Prop where
  | stop {v : Int32} (h : ¬ v < stop) : Strides stop step v []
  | turn {v : Int32} {vs : List Int32} (h : v < stop) (rest : Strides stop step (v + step) vs) :
      Strides stop step v (v :: vs)

/-- What the workers take is, in some order, each of the indices below `stop` once. -/
def Covers (workers : Nat) (stop : Int32) (share : Nat → List Int32) : Prop :=
  ((List.range workers).flatMap share).Perm ((List.range stop.toInt.toNat).map Int32.ofNat)

variable {stop : Int32} {workers n v k : Nat}

theorem ofNat_lt_iff (h : v < 2 ^ 31) : Int32.ofNat v < stop ↔ v < stop.toInt.toNat := by
  rw [Int32.lt_iff_toInt_lt, Int32.toInt_ofNat_of_lt h]
  omega

theorem toNat_toInt_lt (stop : Int32) : stop.toInt.toNat < 2 ^ 31 := by
  have hlt := stop.toInt_lt
  omega

/-! ## Counters that do not wrap around -/

/-- The indices below `n` that are `v` or a number of strides behind it. -/
def share (n workers v : Nat) : List Nat :=
  (List.range n).filter fun k => v ≤ k ∧ k % workers = v % workers

/-- A share is a residue class. -/
theorem mem_share : k ∈ share n workers v ↔ k < n ∧ v ≤ k ∧ k % workers = v % workers := by
  simp [share]

theorem pairwise_share : (share n workers v).Pairwise (· < ·) :=
  pairwise_lt_range.filter _

theorem share_of_le (h : n ≤ v) : share n workers v = [] := by
  refine eq_nil_iff_forall_not_mem.2 fun k hk => ?_
  have hmem := mem_share.1 hk
  omega

theorem share_of_lt (hworkers : 0 < workers) (h : v < n) :
    share n workers v = v :: share n workers (v + workers) := by
  have hsorted : (v :: share n workers (v + workers)).Pairwise (· < ·) := by
    refine pairwise_cons.2 ⟨fun k hk => ?_, pairwise_share⟩
    have hmem := mem_share.1 hk
    omega
  refine pairwise_share.eq_of_mem_iff hsorted fun k => ?_
  rw [mem_cons, mem_share, mem_share, Nat.add_mod_right]
  constructor
  · rintro ⟨hkn, hvk, hmod⟩
    rcases Nat.eq_or_lt_of_le hvk with rfl | hlt
    · exact .inl rfl
    · -- two indices of one residue class are at least a stride apart
      have hdvd : workers ∣ k - v :=
        Nat.dvd_of_mod_eq_zero (Nat.sub_mod_eq_zero_of_mod_eq hmod)
      have hapart := Nat.le_of_dvd (by omega) hdvd
      exact .inr ⟨hkn, by omega, hmod⟩
  · rintro (rfl | ⟨hkn, hvk, hmod⟩)
    · exact ⟨h, Nat.le_refl _, rfl⟩
    · exact ⟨hkn, by omega, hmod⟩

/-- A counter that is at most one stride beyond the bound has not wrapped around. -/
theorem strides_share (hworkers : 0 < workers) (hroom : stop.toInt.toNat + workers ≤ 2 ^ 31)
    (hv : v < stop.toInt.toNat + workers) :
    Strides stop (Int32.ofNat workers) (Int32.ofNat v)
      ((share stop.toInt.toNat workers v).map Int32.ofNat) := by
  induction hleft : stop.toInt.toNat + workers - v using Nat.strong_induction_on
    generalizing v with
  | _ left ih =>
    have hlt : Int32.ofNat v < stop ↔ v < stop.toInt.toNat := ofNat_lt_iff (by omega)
    by_cases hbelow : v < stop.toInt.toNat
    · rw [share_of_lt hworkers hbelow, map_cons]
      refine .turn (hlt.2 hbelow) ?_
      rw [← Int32.ofNat_add]
      exact ih _ (by omega) (by omega) rfl
    · rw [share_of_le (by omega)]
      exact .stop fun h => hbelow (hlt.1 h)

/-- Every index is in the share of one worker, the one that its residue names. -/
theorem perm_shares (hworkers : 0 < workers) :
    ((List.range workers).flatMap (share n workers)).Perm (List.range n) := by
  have hmod {i k : Nat} (hi : i < workers) (hk : k ∈ share n workers i) : k % workers = i := by
    rw [(mem_share.1 hk).2.2, Nat.mod_eq_of_lt hi]
  have hnodup : ((List.range workers).flatMap (share n workers)).Nodup := by
    refine nodup_flatMap.2 ⟨fun i _ => pairwise_share.imp Nat.ne_of_lt, ?_⟩
    refine (nodup_range (n := workers)).imp_of_mem fun hi hj hne k hki hkj => hne ?_
    rw [← hmod (mem_range.1 hi) hki, hmod (mem_range.1 hj) hkj]
  refine (perm_ext_iff_of_nodup hnodup nodup_range).2 fun k => ?_
  rw [mem_flatMap, mem_range]
  constructor
  · rintro ⟨i, -, hk⟩
    exact (mem_share.1 hk).1
  · intro hk
    have hlt := Nat.mod_lt k hworkers
    refine ⟨k % workers, mem_range.2 hlt, mem_share.2 ⟨hk, Nat.mod_le _ _, ?_⟩⟩
    rw [Nat.mod_mod]

/-! ## Counters that wrap around -/

/-- Covered indices are not negative. -/
theorem Covers.nonneg {share : Nat → List Int32} {i : Nat} {w : Int32}
    (h : Covers workers stop share) (hi : i < workers) (hw : w ∈ share i) : 0 ≤ w.toInt := by
  have hmem := h.subset (mem_flatMap.2 ⟨i, mem_range.2 hi, hw⟩)
  obtain ⟨k, hk, rfl⟩ := mem_map.1 hmem
  have hlt := mem_range.1 hk
  have hsmall := toNat_toInt_lt stop
  rw [Int32.toInt_ofNat_of_lt (by omega)]
  omega

/-- Behind each index of its share that is below the bound, a counter goes one stride further. -/
theorem Strides.after {vs : List Int32} {j : Nat}
    (h : Strides stop (Int32.ofNat workers) (Int32.ofNat v) vs)
    (hj : v + j * workers < stop.toInt.toNat) :
    ∃ rest, rest <:+ vs ∧
      Strides stop (Int32.ofNat workers) (Int32.ofNat (v + j * workers + workers)) rest := by
  have hsmall := toNat_toInt_lt stop
  have hstep {w : Nat} {ws : List Int32} (hw : w < stop.toInt.toNat)
      (hws : Strides stop (Int32.ofNat workers) (Int32.ofNat w) ws) :
      ∃ rest, rest <:+ ws ∧
        Strides stop (Int32.ofNat workers) (Int32.ofNat (w + workers)) rest := by
    cases hws with
    | stop hnot => exact absurd ((ofNat_lt_iff (by omega)).2 hw) hnot
    | turn _ hrest =>
      rw [← Int32.ofNat_add] at hrest
      exact ⟨_, suffix_cons _ _, hrest⟩
  induction j with
  | zero =>
    rw [Nat.zero_mul, Nat.add_zero] at hj ⊢
    exact hstep hj h
  | succ j ih =>
    rw [Nat.succ_mul, ← Nat.add_assoc] at hj ⊢
    obtain ⟨ws, hws, hstrides⟩ := ih (by omega)
    obtain ⟨rest, hrest, hstrides⟩ := hstep hj hstrides
    exact ⟨rest, hrest.trans hws, hstrides⟩

/-- Every index of the stride is taken. -/
theorem Strides.mem_of_lt {w step : Int32} {vs : List Int32} (h : Strides stop step w vs)
    (hw : w < stop) : w ∈ vs := by
  cases h with
  | stop hnot => exact absurd hw hnot
  | turn _ _ => exact mem_cons_self

/-- Without room for another stride some counter takes a negative value. -/
theorem exists_negative {share : Nat → List Int32} (hworkers : 0 < workers)
    (hstop : stop ≠ Int32.minValue) (hroom : 2 ^ 31 < stop.toInt.toNat + workers)
    (h : ∀ i < workers, Strides stop (Int32.ofNat workers) (Int32.ofNat i) (share i)) :
    ∃ i < workers, ∃ w ∈ share i, w.toInt < 0 := by
  by_cases hmany : 2 ^ 31 < workers
  · -- more workers than indices there are: one starts at a negative value
    have hstart : Int32.ofNat (2 ^ 31) = Int32.minValue := rfl
    have hbelow : Int32.ofNat (2 ^ 31) < stop := by
      have hle := stop.le_toInt
      have hne : stop.toInt ≠ -2 ^ 31 := fun heq =>
        hstop (Int32.toInt_inj.1 (heq.trans Int32.toInt_minValue.symm))
      rw [hstart, Int32.lt_iff_toInt_lt, Int32.toInt_minValue]
      omega
    refine ⟨2 ^ 31, hmany, _, (h _ hmany).mem_of_lt hbelow, ?_⟩
    rw [hstart, Int32.toInt_minValue]
    decide
  · -- the worker that takes the last index wraps around behind it
    have hsmall := toNat_toInt_lt stop
    have hi := Nat.mod_lt (stop.toInt.toNat - 1) hworkers
    have hlast : (stop.toInt.toNat - 1) % workers + (stop.toInt.toNat - 1) / workers * workers =
        stop.toInt.toNat - 1 := Nat.mod_add_div' _ _
    obtain ⟨rest, hrest, hstrides⟩ :=
      (h _ hi).after (j := (stop.toInt.toNat - 1) / workers) (by omega)
    rw [hlast] at hstrides
    have hwrapped : (Int32.ofNat (stop.toInt.toNat - 1 + workers)).toInt < 0 := by
      rw [Int32.toInt_ofNat', Int.bmod_def]
      simp only [Int32.size]
      omega
    have hbelow : Int32.ofNat (stop.toInt.toNat - 1 + workers) < stop := by
      rw [Int32.lt_iff_toInt_lt]
      omega
    exact ⟨_, hi, _, hrest.subset (hstrides.mem_of_lt hbelow), hwrapped⟩

/-- **When strides cover the indices**: there is room for one more stride, or no index. -/
theorem exists_covers_iff (hworkers : 0 < workers) :
    (∃ share, (∀ i < workers, Strides stop (Int32.ofNat workers) (Int32.ofNat i) (share i)) ∧
        Covers workers stop share) ↔
      stop = Int32.minValue ∨ stop.toInt.toNat + workers ≤ 2 ^ 31 := by
  constructor
  · rintro ⟨share, hstrides, hcovers⟩
    by_contra hnot
    rw [not_or, Nat.not_le] at hnot
    obtain ⟨i, hi, w, hw, hneg⟩ := exists_negative hworkers hnot.1 hnot.2 hstrides
    have hnonneg := hcovers.nonneg hi hw
    omega
  · rintro (rfl | hroom)
    · refine ⟨fun _ => [], fun i _ => .stop fun hlt => ?_, ?_⟩
      · have hle := (Int32.ofNat i).le_toInt
        rw [Int32.lt_iff_toInt_lt, Int32.toInt_minValue] at hlt
        omega
      · rw [Covers, flatMap_eq_nil_iff.2 fun _ _ => rfl]
        exact .refl _
    · refine ⟨fun i => (share stop.toInt.toNat workers i).map Int32.ofNat,
        fun i hi => strides_share hworkers hroom (by omega), ?_⟩
      rw [Covers, ← map_flatMap]
      exact (perm_shares hworkers).map _

end WgslKernel
