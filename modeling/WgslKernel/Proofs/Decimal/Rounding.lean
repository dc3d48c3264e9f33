import Mathlib.Algebra.Order.Ring.Nat
import Mathlib.Tactic.Positivity
import Mathlib.Tactic.Ring
import WgslKernel.Decimal.Binary32

/-!
# Decimals that round to a float

A decimal stands for a float if it lies in the float's rounding interval.  The intervals join end to
end, and an end belongs to the even one of its neighbours, so no decimal lies in two of them.
-/

namespace WgslKernel

namespace RoundingInterval

variable {r : RoundingInterval} {x : Nat}

theorem contains_iff : r.contains x = true ↔
    (if r.closed then r.low ≤ x ∧ x ≤ r.high else r.low < x ∧ x < r.high) := by
  unfold contains
  split <;> simp

theorem low_le_of_contains (h : r.contains x = true) : r.low ≤ x := by
  rw [contains_iff] at h
  split at h <;> omega

theorem le_high_of_contains (h : r.contains x = true) : x ≤ r.high := by
  rw [contains_iff] at h
  split at h <;> omega

/-- Only a closed interval contains its ends. -/
theorem closed_of_contains (h : r.contains x = true) (hend : x = r.low ∨ x = r.high) :
    r.closed = true := by
  rw [contains_iff] at h
  split at h
  · assumption
  · omega

/-! ## The shortest decimal -/

/-- A candidate is in the interval. -/
theorem contains_of_candidate? {k c : Nat} (h : r.candidate? k = some c) :
    r.contains (c * (10 ^ k * r.unit)) = true := by
  unfold candidate? at h
  dsimp only at h
  split at h
  · split at h
    · cases h
      assumption
    · cases h
      assumption
  · cases h
    assumption
  · cases h
    assumption
  · cases h

/-- The finest grid has a point in an interval that reaches far enough below its value. -/
theorem exists_candidate? (hlow : r.low + r.unit ≤ r.value) (hhigh : r.value < r.high)
    (hunit : 0 < r.unit) : ∃ c, r.candidate? 0 = some c := by
  have hdiv := Nat.div_add_mod r.value r.unit
  have hmod := Nat.mod_lt r.value hunit
  have hstep : Nat.pow 10 0 * r.unit = r.unit := Nat.one_mul r.unit
  have hbelow :
      r.contains (r.value / (Nat.pow 10 0 * r.unit) * (Nat.pow 10 0 * r.unit)) = true := by
    rw [hstep, Nat.mul_comm, contains_iff]
    split <;> omega
  unfold candidate?
  dsimp only
  rw [hbelow]
  cases r.contains _ with
  | true =>
    dsimp only
    split <;> exact ⟨_, rfl⟩
  | false => exact ⟨_, rfl⟩

theorem contains_coarsest (h : ∃ c, r.candidate? 0 = some c) (k : Nat) :
    r.contains ((r.coarsest k).1 * (10 ^ (r.coarsest k).2 * r.unit)) = true := by
  induction k with
  | zero =>
    obtain ⟨c, hc⟩ := h
    rw [coarsest, hc]
    exact contains_of_candidate? hc
  | succ k ih =>
    rw [coarsest]
    split
    · rename_i c hc
      exact contains_of_candidate? hc
    · exact ih

/-- Zeros move from the digits to the exponent. -/
theorem stripZeros_value (fuel c k : Nat) :
    (stripZeros fuel c k).1 * 10 ^ (stripZeros fuel c k).2 = c * 10 ^ k := by
  induction fuel generalizing c k with
  | zero => rfl
  | succ fuel ih =>
    rw [stripZeros]
    split
    · rename_i hc
      have hten : c = c / 10 * 10 := by omega
      rw [ih, Nat.pow_succ]
      conv_rhs => rw [hten]
      ring
    · rfl

/-- **The shortest decimal of an interval lies in it.** -/
theorem contains_shortest (h : ∃ c, r.candidate? 0 = some c) : ∃ c k : Nat,
    r.shortest = ⟨c, k⟩ ∧ r.contains (c * 10 ^ k * r.unit) = true := by
  refine ⟨_, _, rfl, ?_⟩
  have hcoarsest := contains_coarsest h
    (integerDigits (r.value / r.unit + 1) (r.value / r.unit) - 1)
  rw [← Nat.mul_assoc, ← stripZeros_value] at hcoarsest
  exact hcoarsest

end RoundingInterval

namespace Binary32

variable {bits bits' : UInt32} {x : Nat}

/-! ## Intervals end to end -/

/-- The upper end of the interval of the float with magnitude `n`, in units of `2 ^ -151`. -/
def edge (n : Nat) : Nat :=
  (4 * (if n / 0x800000 = 0 then n % 0x800000 else n % 0x800000 + 0x800000) + 2) *
    2 ^ (n / 0x800000 - 1)

/-- The upper end is half way to the next float. -/
theorem high_eq (bits : UInt32) : (interval bits).high = edge (magnitude bits) * 10 ^ places := by
  rw [edge, Nat.mul_assoc]
  rfl

/-- The next float has the next fraction, or the next exponent and no fraction. -/
theorem succ_fields (n : Nat) :
    (n + 1) / 0x800000 = n / 0x800000 ∧ (n + 1) % 0x800000 = n % 0x800000 + 1 ∨
      (n + 1) / 0x800000 = n / 0x800000 + 1 ∧ (n + 1) % 0x800000 = 0 ∧
        n % 0x800000 = 0x7fffff := by
  omega

theorem edge_lt_succ (n : Nat) : edge n < edge (n + 1) := by
  have hpow := Nat.two_pow_pos (n / 0x800000 - 1)
  rcases succ_fields n with ⟨hexp, hfrac⟩ | ⟨hexp, hfrac, hlast⟩
  · rw [edge, edge, hexp, hfrac]
    refine Nat.mul_lt_mul_of_pos_right ?_ hpow
    split <;> omega
  · rw [edge, edge, hexp, hfrac, hlast]
    by_cases hzero : n / 0x800000 = 0
    · simp [hzero]
    · -- Twice the unit, and little more than half the significand.
      obtain ⟨e, he⟩ := Nat.exists_eq_succ_of_ne_zero hzero
      rw [he] at hpow ⊢
      rw [if_neg (Nat.succ_ne_zero _), if_neg (Nat.succ_ne_zero _), Nat.succ_sub_one,
        Nat.add_sub_cancel, Nat.pow_succ]
      rw [Nat.succ_sub_one] at hpow
      omega

/-- Edges grow with the magnitude. -/
theorem edge_strictMono : StrictMono edge := strictMono_nat_of_lt_succ edge_lt_succ

/-- **Intervals join end to end.** -/
theorem low_eq {n : Nat} (h : magnitude bits = n + 1) :
    (interval bits).low = edge n * 10 ^ places := by
  have hlow : (interval bits).low =
      (4 * significand bits - if fraction bits = 0 ∧ 1 < exponentField bits then 1 else 2) *
        2 ^ scale bits * 10 ^ places := by
    rw [Nat.mul_assoc]
    rfl
  rw [hlow]
  congr 1
  rw [significand, scale, fraction, exponentField, h, edge]
  rcases succ_fields n with ⟨hexp, hfrac⟩ | ⟨hexp, hfrac, hlast⟩
  · rw [hexp, hfrac]
    congr 1
    split <;> split <;> omega
  · rw [hexp, hfrac, hlast]
    by_cases hzero : n / 0x800000 = 0
    · simp [hzero]
    · obtain ⟨e, he⟩ := Nat.exists_eq_succ_of_ne_zero hzero
      rw [he, if_neg (Nat.succ_ne_zero _), if_neg (Nat.succ_ne_zero _),
        if_pos ⟨rfl, Nat.succ_lt_succ (Nat.succ_pos _)⟩, Nat.succ_sub_one e, Nat.add_sub_cancel,
        Nat.pow_succ]
      omega

/-- Ends belong to the even float. -/
theorem closed_eq (bits : UInt32) : (interval bits).closed = (magnitude bits % 2 == 0) := by
  have hclosed : (interval bits).closed = (significand bits % 2 == 0) := rfl
  rw [hclosed, significand, exponentField, fraction]
  congr 1
  split <;> omega

/-- **No number rounds to two floats**: a common end belongs to the even one of them. -/
theorem magnitude_le_of_contains (hpos : magnitude bits ≠ 0) (h : (interval bits).contains x = true)
    (h' : (interval bits').contains x = true) : magnitude bits ≤ magnitude bits' := by
  by_contra hlt
  obtain ⟨n, hn⟩ := Nat.exists_eq_succ_of_ne_zero hpos
  have hx := RoundingInterval.low_le_of_contains h
  have hx' := RoundingInterval.le_high_of_contains h'
  rw [low_eq hn] at hx
  rw [high_eq] at hx'
  have hten : 0 < 10 ^ places := by decide
  have hedge : edge n ≤ edge (magnitude bits') := Nat.le_of_mul_le_mul_right (hx.trans hx') hten
  have hle : n ≤ magnitude bits' := edge_strictMono.le_iff_le.1 hedge
  have heq : magnitude bits' = n := by omega
  rw [heq] at hx'
  have hend : x = edge n * 10 ^ places := Nat.le_antisymm hx' hx
  have hclosed := RoundingInterval.closed_of_contains h (.inl (by rw [low_eq hn, hend]))
  have hclosed' := RoundingInterval.closed_of_contains h' (.inr (by rw [high_eq, heq, hend]))
  rw [closed_eq, beq_iff_eq] at hclosed hclosed'
  omega

/-! ## The decimal of a float -/

theorem significand_pos (hpos : magnitude bits ≠ 0) : 0 < significand bits := by
  rw [significand, exponentField, fraction]
  split <;> omega

/-- The interval of a float reaches one decimal place below its value, the last one that is kept. -/
theorem low_add_unit_le (hpos : magnitude bits ≠ 0) :
    (interval bits).low + (interval bits).unit ≤ (interval bits).value := by
  obtain ⟨gap, hgap, hlow⟩ : ∃ gap, (gap = 1 ∨ gap = 2) ∧ (interval bits).low =
      (4 * significand bits - gap) * (2 ^ scale bits * 10 ^ places) := by
    refine ⟨if fraction bits = 0 ∧ 1 < exponentField bits then 1 else 2, ?_, rfl⟩
    split <;> simp
  have hvalue : (interval bits).value = 4 * significand bits * (2 ^ scale bits * 10 ^ places) := rfl
  have hunit : (interval bits).unit ≤ 2 ^ scale bits * 10 ^ places :=
    calc (interval bits).unit = 2 ^ 151 := rfl
      _ ≤ 1 * 10 ^ places := by decide
      _ ≤ 2 ^ scale bits * 10 ^ places := Nat.mul_le_mul_right _ (Nat.two_pow_pos _)
  have hsig := significand_pos hpos
  rw [hlow, hvalue]
  calc (4 * significand bits - gap) * (2 ^ scale bits * 10 ^ places) + (interval bits).unit
      ≤ (4 * significand bits - gap) * (2 ^ scale bits * 10 ^ places) +
          2 ^ scale bits * 10 ^ places := Nat.add_le_add_left hunit _
    _ = (4 * significand bits - gap + 1) * (2 ^ scale bits * 10 ^ places) := by ring
    _ ≤ 4 * significand bits * (2 ^ scale bits * 10 ^ places) :=
        Nat.mul_le_mul_right _ (by omega)

theorem value_lt_high (bits : UInt32) : (interval bits).value < (interval bits).high := by
  have hfactor : 0 < 2 ^ scale bits * 10 ^ places := by positivity
  exact Nat.mul_lt_mul_of_pos_right (by omega) hfactor

theorem unit_pos (bits : UInt32) : 0 < (interval bits).unit := by
  rw [interval]
  exact Nat.pow_pos (by decide)

/-- **The decimal of a float rounds to the float.** -/
theorem exists_decimal (hpos : magnitude bits ≠ 0) : ∃ c k : Nat,
    decimal bits = ⟨c, k - places⟩ ∧ 0 < c ∧
      (interval bits).contains (c * 10 ^ k * (interval bits).unit) = true := by
  have hcandidate := RoundingInterval.exists_candidate? (low_add_unit_le hpos) (value_lt_high bits)
    (unit_pos bits)
  obtain ⟨c, k, hshortest, hcontains⟩ := RoundingInterval.contains_shortest hcandidate
  refine ⟨c, k, by rw [decimal, hshortest], Nat.pos_of_ne_zero fun hzero => ?_, hcontains⟩
  obtain ⟨n, hn⟩ := Nat.exists_eq_succ_of_ne_zero hpos
  rw [hzero, Nat.zero_mul, Nat.zero_mul] at hcontains
  have hlow := RoundingInterval.low_le_of_contains hcontains
  rw [low_eq hn] at hlow
  have hedge : 0 < edge n := by
    unfold edge
    positivity
  exact absurd (Nat.mul_pos hedge (Nat.pow_pos (by decide))) (Nat.not_lt.2 hlow)

end Binary32

end WgslKernel
