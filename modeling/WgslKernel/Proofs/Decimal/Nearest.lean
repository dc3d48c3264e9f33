import Mathlib.Algebra.Order.Field.Rat
import Mathlib.Tactic.Linarith
import WgslKernel.Proofs.Decimal.RoundTrip

/-!
# Nearest floats and shortest decimals

`Binary32.RoundsTo` is rounding to the nearest float, with ties to even, said by distances alone.
The text of a float rounds to that float, and shows a decimal with as few digits as any that does:
the search looks at coarse grids first, and where it stops no coarser grid has a point in the
rounding interval.
-/

namespace WgslKernel

namespace RoundingInterval

variable {r : RoundingInterval} {c k p t : Nat}

/-- Whether a number lies in the interval, as a numerator that need not be whole. -/
def Holds (r : RoundingInterval) (x : ℚ) : Prop :=
  if r.closed then r.low ≤ x ∧ x ≤ r.high else r.low < x ∧ x < r.high

theorem holds_natCast {n : Nat} : r.Holds n ↔ r.contains n = true := by
  rw [contains_iff, Holds]
  split <;> norm_cast

theorem Holds.between {x y z : ℚ} (hx : r.Holds x) (hz : r.Holds z) (hxy : x ≤ y) (hyz : y ≤ z) :
    r.Holds y := by
  unfold Holds at *
  split
  · simp_all only [if_true]
    exact ⟨hx.1.trans hxy, hyz.trans hz.2⟩
  · simp_all only [Bool.false_eq_true, if_false]
    exact ⟨hx.1.trans_le hxy, hyz.trans_lt hz.2⟩

/-! ## The search -/

/-- A grid with a point in the interval has one next to the value there. -/
theorem candidate?_ne_none {q : Nat} (hvalue : r.Holds r.value)
    (h : r.Holds (q * (10 ^ k * r.unit) : Nat)) (hunit : 0 < r.unit) : r.candidate? k ≠ none := by
  have hstep : 0 < 10 ^ k * r.unit := by positivity
  have hbelow : r.value / (10 ^ k * r.unit) * (10 ^ k * r.unit) ≤ r.value :=
    Nat.div_mul_le_self _ _
  have habove : r.value ≤ (r.value / (10 ^ k * r.unit) + 1) * (10 ^ k * r.unit) :=
    (Nat.lt_mul_of_div_lt (Nat.lt_succ_self _) hstep).le
  have hnext : r.contains (r.value / (10 ^ k * r.unit) * (10 ^ k * r.unit)) = true ∨
      r.contains ((r.value / (10 ^ k * r.unit) + 1) * (10 ^ k * r.unit)) = true := by
    rw [← holds_natCast, ← holds_natCast]
    rcases Nat.lt_or_ge (r.value / (10 ^ k * r.unit)) q with hq | hq
    · exact .inr (hvalue.between h (by exact_mod_cast habove)
        (by exact_mod_cast Nat.mul_le_mul_right _ hq))
    · exact .inl (h.between hvalue (by exact_mod_cast Nat.mul_le_mul_right _ hq)
        (by exact_mod_cast hbelow))
  unfold candidate?
  dsimp only
  split
  · split <;> simp
  · simp
  · simp
  · rename_i hb ha
    rcases hnext with hnext | hnext
    · exact absurd (hb.symm.trans hnext) (by decide)
    · exact absurd (ha.symm.trans hnext) (by decide)

/-- The last digit of a decimal in the interval is finer than a grid without a point there. -/
theorem lt_of_candidate?_eq_none {d : Nat} {j : Int} (hvalue : r.Holds r.value)
    (h : r.Holds (d * 10 ^ j * r.unit)) (hunit : 0 < r.unit) (hnone : r.candidate? k = none) :
    j < k := by
  by_contra hj
  obtain ⟨m, hm⟩ := Int.le.dest (not_lt.1 hj)
  refine candidate?_ne_none (q := d * 10 ^ m) hvalue ?_ hunit hnone
  convert h using 1
  rw [← hm, zpow_add₀ (by norm_num)]
  push_cast
  norm_cast
  ring

/-- No power of ten lies between the value and a number in the interval, if its grid has no point
there. -/
theorem pow_le_of_candidate?_eq_none {x : ℚ} (hvalue : r.Holds r.value) (h : r.Holds x)
    (hunit : 0 < r.unit) (hnone : r.candidate? k = none) (hk : 10 ^ k * r.unit ≤ r.value) :
    ((10 ^ k * r.unit : Nat) : ℚ) ≤ x := by
  by_contra hlt
  refine candidate?_ne_none (q := 1) hvalue ?_ hunit hnone
  rw [Nat.one_mul]
  exact h.between hvalue (not_le.1 hlt).le (by exact_mod_cast hk)

theorem candidate?_le (h : r.candidate? k = some c) : c ≤ r.value / (10 ^ k * r.unit) + 1 := by
  unfold candidate? at h
  dsimp only at h
  split at h
  · split at h <;> cases h
    · exact Nat.le_succ _
    · exact le_rfl
  · cases h
    exact Nat.le_succ _
  · cases h
    exact le_rfl
  · cases h

/-- The search stops at the first grid with a point in the interval. -/
theorem coarsest_spec (h : ∃ c, r.candidate? 0 = some c) (K : Nat) : ∃ c k,
    r.coarsest K = (c, k) ∧ k ≤ K ∧ r.candidate? k = some c ∧
      ∀ i, k < i → i ≤ K → r.candidate? i = none := by
  induction K with
  | zero =>
    obtain ⟨c, hc⟩ := h
    exact ⟨c, 0, by rw [coarsest, hc]; rfl, le_rfl, hc, fun i hi hi' => by omega⟩
  | succ K ih =>
    rw [coarsest]
    split
    · rename_i c hc
      exact ⟨c, K + 1, rfl, le_rfl, hc, fun i hi hi' => by omega⟩
    · rename_i hnone
      obtain ⟨c, k, heq, hk, hc, hcoarser⟩ := ih
      refine ⟨c, k, heq, by omega, hc, fun i hi hi' => ?_⟩
      rcases Nat.le_succ_iff.1 hi' with hi' | rfl
      · exact hcoarser i hi hi'
      · exact hnone

/-- Without its zeros a number is no larger. -/
theorem stripZeros_le (fuel : Nat) : (stripZeros fuel c k).1 ≤ c := by
  induction fuel generalizing c k with
  | zero => exact le_rfl
  | succ fuel ih =>
    rw [stripZeros]
    split
    · exact ih.trans (Nat.div_le_self c 10)
    · exact le_rfl

theorem stripZeros_pow {fuel : Nat} (h : t < fuel) : (stripZeros fuel (10 ^ t) k).1 = 1 := by
  induction t generalizing fuel k with
  | zero =>
    obtain ⟨fuel, rfl⟩ := Nat.exists_eq_succ_of_ne_zero (Nat.ne_of_gt h)
    rfl
  | succ t ih =>
    obtain ⟨fuel, rfl⟩ := Nat.exists_eq_succ_of_ne_zero (Nat.ne_zero_of_lt h)
    have hzero : 10 ^ (t + 1) % 10 = 0 := by omega
    have hdiv : 10 ^ (t + 1) / 10 = 10 ^ t := by omega
    rw [stripZeros, if_pos hzero, hdiv]
    exact ih (Nat.lt_of_succ_lt_succ h)

theorem stripZeros_lt (ht : 0 < t) (hc : c ≤ 10 ^ t) : (stripZeros c c k).1 < 10 ^ t := by
  rcases hc.lt_or_eq with hc | rfl
  · exact (stripZeros_le c).trans_lt hc
  · rw [stripZeros_pow (Nat.lt_pow_self (by decide))]
    exact Nat.one_lt_pow (Nat.ne_of_gt ht) (by decide)

/-- The number of digits that a number has. -/
theorem integerDigits_spec {fuel n : Nat} (h : n < fuel) :
    n < 10 ^ integerDigits fuel n ∧ (0 < n → 0 < integerDigits fuel n ∧
      10 ^ (integerDigits fuel n - 1) ≤ n) := by
  induction fuel generalizing n with
  | zero => omega
  | succ fuel ih =>
    rw [integerDigits]
    split
    · rename_i hn
      simp [hn]
    · obtain ⟨hlt, hle⟩ := ih (n := n / 10) (by omega)
      refine ⟨by rw [Nat.pow_succ]; omega, fun hn => ⟨Nat.succ_pos _, ?_⟩⟩
      rw [Nat.add_sub_cancel]
      rcases Nat.eq_zero_or_pos (n / 10) with hzero | hpos
      · rw [hzero] at hlt ⊢
        cases fuel <;> simpa [integerDigits] using Nat.succ_le_of_lt hn
      · obtain ⟨hdigits, hle⟩ := hle hpos
        obtain ⟨s, hs⟩ := Nat.exists_eq_succ_of_ne_zero (Nat.ne_of_gt hdigits)
        rw [hs, Nat.succ_sub_one] at hle
        rw [hs, Nat.pow_succ]
        omega

/-- **No decimal in the interval has fewer digits than the shortest one.** -/
theorem digits_shortest_lt (hcandidate : ∃ c, r.candidate? 0 = some c)
    (hvalue : r.Holds r.value) (hunit : 0 < r.unit) (hlow : r.low + r.unit ≤ r.value)
    (hpos : 0 < r.low) {d : Nat} {j : Int} (hd : d < 10 ^ p)
    (h : r.Holds (d * 10 ^ j * r.unit)) : r.shortest.digits < 10 ^ p := by
  have hppos : 0 < p := by
    refine Nat.pos_of_ne_zero fun hp => ?_
    rw [hp, pow_zero, Nat.lt_one_iff] at hd
    rw [hd, Nat.cast_zero, zero_mul, zero_mul, ← Nat.cast_zero, holds_natCast] at h
    exact absurd (low_le_of_contains h) (Nat.not_le.2 hpos)
  have hwhole : 0 < r.value / r.unit := Nat.div_pos (by omega) hunit
  obtain ⟨hlt, hsize⟩ := integerDigits_spec (Nat.lt_succ_self (r.value / r.unit))
  obtain ⟨hs, hle⟩ := hsize hwhole
  have hshortest : r.shortest.digits = (stripZeros
      (r.coarsest (integerDigits (r.value / r.unit + 1) (r.value / r.unit) - 1)).1
      (r.coarsest (integerDigits (r.value / r.unit + 1) (r.value / r.unit) - 1)).1
      (r.coarsest (integerDigits (r.value / r.unit + 1) (r.value / r.unit) - 1)).2).1 := rfl
  rw [hshortest]
  generalize integerDigits (r.value / r.unit + 1) (r.value / r.unit) = s at *
  obtain ⟨c, k, heq, hk, hc, hcoarser⟩ := coarsest_spec hcandidate (s - 1)
  rw [heq]
  have hcs : c ≤ 10 ^ (s - k) := by
    have hgrid : r.value / (10 ^ k * r.unit) < 10 ^ (s - k) := by
      rw [Nat.mul_comm, ← Nat.div_div_eq_div_mul]
      refine Nat.div_lt_of_lt_mul (hlt.trans_eq ?_)
      rw [← Nat.pow_add]
      congr 1
      omega
    exact (candidate?_le hc).trans hgrid
  refine (stripZeros_lt (by omega) hcs).trans_le (Nat.pow_le_pow_right (by decide) ?_)
  by_contra hp
  have hj : j ≤ k := Int.lt_add_one_iff.1 <| by
    exact_mod_cast lt_of_candidate?_eq_none hvalue h hunit
      (hcoarser (k + 1) (Nat.lt_succ_self k) (by omega))
  -- The leading power of ten of the value has one digit.
  have hge : ((10 ^ (s - 1) * r.unit : Nat) : ℚ) ≤ d * 10 ^ j * r.unit :=
    pow_le_of_candidate?_eq_none hvalue h hunit (hcoarser (s - 1) (by omega) le_rfl)
      ((Nat.mul_le_mul_right _ hle).trans (Nat.div_mul_le_self _ _))
  have hunit' : (0 : ℚ) < r.unit := by exact_mod_cast hunit
  have hpow : ((10 ^ (s - 1) : Nat) : ℚ) < (10 ^ (p + k) : Nat) := by
    rw [Nat.cast_mul] at hge
    calc ((10 ^ (s - 1) : Nat) : ℚ) ≤ d * 10 ^ j := le_of_mul_le_mul_right hge hunit'
      _ ≤ d * 10 ^ (k : Int) := by
        gcongr
        norm_num
      _ < 10 ^ p * 10 ^ (k : Int) :=
        mul_lt_mul_of_pos_right (by exact_mod_cast hd) (zpow_pos (by norm_num) _)
      _ = (10 ^ (p + k) : Nat) := by
        rw [zpow_natCast, ← pow_add]
        push_cast
        rfl
  have hexponent : s - 1 < p + k :=
    (Nat.pow_lt_pow_iff_right (a := 10) (by decide)).1 (by exact_mod_cast hpow)
  omega

end RoundingInterval

namespace Binary32

variable {bits : UInt32} {m n : Nat} {x : ℚ}

/-! ## Nearest floats -/

/-- The float with a magnitude in units of `2 ^ -149`, the least float above zero. -/
def weight (n : Nat) : Nat :=
  (if n / 0x800000 = 0 then n % 0x800000 else n % 0x800000 + 0x800000) * 2 ^ (n / 0x800000 - 1)

/-- The number of a magnitude.  That of infinity is `2 ^ 128`, the float that would come next. -/
def value (n : Nat) : ℚ := weight n / 2 ^ 149

/-- One float is as good for a number as another: it is nearer, or as near and even. -/
def Prefers (x : ℚ) (n m : Nat) : Prop :=
  |x - value n| < |x - value m| ∨ |x - value n| = |x - value m| ∧ (m = n ∨ n % 2 = 0)

/-- A number rounds to the nearest float, and to the even one of two that are equally near. -/
def RoundsTo (x : ℚ) (n : Nat) : Prop := ∀ m ≤ 0x7f800000, Prefers x n m

theorem weight_succ (n : Nat) : weight (n + 1) = weight n + 2 ^ (n / 0x800000 - 1) := by
  unfold weight
  rcases succ_fields n with ⟨hexp, hfrac⟩ | ⟨hexp, hfrac, hlast⟩
  · rw [hexp, hfrac]
    split <;> ring
  · rw [hexp, hfrac, hlast]
    by_cases hzero : n / 0x800000 = 0
    · simp [hzero]
    · obtain ⟨e, he⟩ := Nat.exists_eq_succ_of_ne_zero hzero
      rw [he, if_neg (Nat.succ_ne_zero _), if_neg (Nat.succ_ne_zero _), Nat.succ_sub_one e,
        Nat.succ_sub_one, Nat.pow_succ]
      omega

/-- Larger magnitudes are larger floats. -/
theorem value_strictMono : StrictMono value := by
  refine strictMono_nat_of_lt_succ fun n => ?_
  unfold value
  gcongr
  rw [weight_succ]
  exact Nat.lt_add_of_pos_right (Nat.two_pow_pos _)

/-- The ends of the intervals lie halfway between two floats. -/
theorem edge_eq (n : Nat) : (edge n : ℚ) = (value n + value (n + 1)) * 2 ^ 150 := by
  have hedge : edge n = 2 * (weight n + weight (n + 1)) := by
    rw [weight_succ, edge, weight]
    ring
  rw [hedge, value, value]
  push_cast
  ring

/-- The nearer of two numbers lies on the same side of the point halfway between them. -/
theorem nearer {a b : ℚ} (h : a < b) : (|x - a| < |x - b| ↔ 2 * x < a + b) ∧
    (|x - b| < |x - a| ↔ a + b < 2 * x) ∧ (|x - a| = |x - b| ↔ 2 * x = a + b) := by
  rcases abs_cases (x - a) with ⟨ha, _⟩ | ⟨ha, _⟩ <;>
    rcases abs_cases (x - b) with ⟨hb, _⟩ | ⟨hb, _⟩ <;> rw [ha, hb] <;>
    refine ⟨?_, ?_, ?_⟩ <;> constructor <;> intro _ <;> linarith

/-- Preferring a float to one below it. -/
theorem prefers_below (h : m < n) : Prefers x n m ↔
    value m + value n < 2 * x ∨ value m + value n = 2 * x ∧ n % 2 = 0 := by
  obtain ⟨-, habove, heven⟩ := nearer (x := x) (value_strictMono h)
  rw [Prefers, habove, eq_comm, heven, or_iff_right h.ne, eq_comm]

/-- Preferring a float to one above it. -/
theorem prefers_above (h : n < m) : Prefers x n m ↔
    2 * x < value n + value m ∨ 2 * x = value n + value m ∧ n % 2 = 0 := by
  obtain ⟨hbelow, -, heven⟩ := nearer (x := x) (value_strictMono h)
  rw [Prefers, hbelow, heven, or_iff_right h.ne']

/-- A number rounds to a float that is as good for it as the floats next to that one. -/
theorem roundsTo_iff (hn : n < 0x7f800000) :
    RoundsTo x n ↔ (∀ m, n = m + 1 → Prefers x n m) ∧ Prefers x n (n + 1) := by
  refine ⟨fun h => ⟨fun m hm => h m (by omega), h (n + 1) (by omega)⟩, ?_⟩
  rintro ⟨hlow, hhigh⟩ m -
  rw [prefers_above (Nat.lt_succ_self n)] at hhigh
  rcases Nat.lt_trichotomy m n with hm | rfl | hm
  · obtain ⟨n, rfl⟩ := Nat.exists_eq_succ_of_ne_zero (Nat.ne_zero_of_lt hm)
    have hlow := (prefers_below (Nat.lt_succ_self n)).1 (hlow n rfl)
    rw [prefers_below hm]
    rcases (value_strictMono.monotone (Nat.le_of_lt_succ hm)).lt_or_eq with hmn | hmn
    · rcases hlow with hlow | ⟨hlow, -⟩ <;> exact .inl (by linarith)
    · rwa [hmn]
  · exact .inr ⟨rfl, .inl rfl⟩
  · rw [prefers_above hm]
    rcases (value_strictMono.monotone (Nat.succ_le_of_lt hm)).lt_or_eq with hmn | hmn
    · rcases hhigh with hhigh | ⟨hhigh, -⟩ <;> exact .inl (by linarith)
    · rwa [← hmn]

/-- A number rounds to one magnitude. -/
theorem RoundsTo.not_lt (h : RoundsTo x n) (h' : RoundsTo x m) (hm : m < 0x7f800000) : ¬n < m := by
  intro hlt
  have hhigh := (prefers_above (Nat.lt_succ_self n)).1 (h (n + 1) (by omega))
  have hlow := (prefers_below hlt).1 (h' n (by omega))
  have hmono : value (n + 1) ≤ value m := value_strictMono.monotone hlt
  rcases hhigh with hhigh | ⟨hhigh, heven⟩
  · rcases hlow with hlow | ⟨hlow, -⟩ <;> linarith
  · rcases hlow with hlow | ⟨hlow, heven'⟩
    · linarith
    · have heq : n + 1 = m := value_strictMono.injective (by linarith)
      omega

/-- **A number rounds to one float at most.** -/
theorem RoundsTo.unique (h : RoundsTo x n) (h' : RoundsTo x m) (hn : n < 0x7f800000)
    (hm : m < 0x7f800000) : n = m :=
  Nat.le_antisymm (Nat.not_lt.1 (h'.not_lt h hn)) (Nat.not_lt.1 (h.not_lt h' hm))

theorem magnitude_lt (h : isFinite bits = true) : magnitude bits < 0x7f800000 := by
  rw [isFinite, exponentField, decide_eq_true_eq] at h
  omega

/-- **The interval of a float holds the numbers that round to it.** -/
theorem holds_iff (hfinite : isFinite bits = true) (hpos : magnitude bits ≠ 0) :
    (interval bits).Holds (x * 10 ^ places * (interval bits).unit) ↔
      RoundsTo x (magnitude bits) := by
  obtain ⟨n, hn⟩ := Nat.exists_eq_succ_of_ne_zero hpos
  have hunit : ((interval bits).unit : ℚ) = 2 ^ 151 := by
    rw [interval]
    norm_num
  have hpos : (0 : ℚ) < 2 ^ 150 * 10 ^ places := by positivity
  have hshift : x * 10 ^ places * (interval bits).unit = 2 * x * (2 ^ 150 * 10 ^ places) := by
    rw [hunit]
    ring
  have hedge (n : Nat) : ((edge n * 10 ^ places : Nat) : ℚ) =
      (value n + value (n + 1)) * (2 ^ 150 * 10 ^ places) := by
    rw [Nat.cast_mul, edge_eq, mul_assoc, Nat.cast_pow, Nat.cast_ofNat]
  rw [roundsTo_iff (magnitude_lt hfinite), RoundingInterval.Holds, low_eq hn, high_eq, closed_eq,
    hshift, hedge, hedge, mul_le_mul_iff_left₀ hpos, mul_le_mul_iff_left₀ hpos,
    mul_lt_mul_iff_left₀ hpos, mul_lt_mul_iff_left₀ hpos, hn]
  simp only [beq_iff_eq, Nat.succ_eq_add_one, Nat.add_right_cancel_iff, forall_eq',
    prefers_below (Nat.lt_succ_self n), prefers_above (Nat.lt_succ_self (n + 1))]
  split <;> simp_all [le_iff_lt_or_eq]

/-- The text of a float rounds to it. -/
theorem roundsTo_magnitudeText (hfinite : isFinite bits = true) :
    RoundsTo (reading (magnitudeText bits).toList).toRat (magnitude bits) := by
  by_cases hzero : magnitude bits = 0
  · rw [toRat_zero hzero, hzero, roundsTo_iff (by decide)]
    exact ⟨fun m hm => by omega, (prefers_above Nat.one_pos).2 (.inl (by simp [value, weight]))⟩
  · obtain ⟨n, -, hn, hcontains⟩ := toRat_magnitudeText hzero
    rw [← holds_iff hfinite hzero, hn]
    exact_mod_cast RoundingInterval.holds_natCast.2 hcontains

/-- **No decimal that rounds to a float has fewer digits than the one that its text shows.** -/
theorem digits_shownDecimal_lt (hfinite : isFinite bits = true) {d p : Nat} {j : Int}
    (hd : d < 10 ^ p) (h : RoundsTo (d * 10 ^ j) (magnitude bits)) :
    (shownDecimal bits).digits < 10 ^ p := by
  by_cases hzero : magnitude bits = 0
  · rw [shownDecimal, if_pos hzero]
    exact Nat.pow_pos (by decide)
  have hlow := low_add_unit_le hzero
  have hunit := unit_pos bits
  have hhigh := value_lt_high bits
  have hvalue : (interval bits).Holds (interval bits).value := by
    rw [RoundingInterval.holds_natCast, RoundingInterval.contains_iff]
    split <;> omega
  have hlowPos : 0 < (interval bits).low := by
    obtain ⟨n, hn⟩ := Nat.exists_eq_succ_of_ne_zero hzero
    rw [low_eq hn, edge]
    positivity
  have hcandidate := RoundingInterval.exists_candidate? hlow hhigh hunit
  have hdigits : (interval bits).shortest.digits < 10 ^ p := by
    refine RoundingInterval.digits_shortest_lt (j := j + places) hcandidate hvalue hunit hlow
      hlowPos hd ?_
    rw [zpow_add₀ (by norm_num), zpow_natCast, ← mul_assoc]
    exact (holds_iff hfinite hzero).2 h
  obtain ⟨c, k, hshortest, -⟩ := RoundingInterval.contains_shortest hcandidate
  rw [hshortest] at hdigits
  rw [shownDecimal, if_neg hzero, decimal, hshortest]
  exact hdigits

end Binary32

end WgslKernel
