import WgslKernel.Proofs.Semantics.Kernel

/-!
# Machine words as integers

An operation on words is the operation on the integers they stand for, brought back to a word by
`Int32.ofInt`.  A machine rounds towards zero, and the correction that a shader makes afterwards is
right for all signs.
-/

namespace WgslKernel.Words

/-- The floored quotient is one less than the truncated one if it is inexact and signs differ. -/
theorem fdiv_eq {x y : Int} (hy : y ≠ 0) :
    x.fdiv y = if x.tmod y ≠ 0 ∧ (x < 0 ↔ ¬ y < 0) then x.tdiv y - 1 else x.tdiv y := by
  rw [Int.fdiv_eq_tdiv]
  by_cases hdvd : y ∣ x
  · have hmod : x.tmod y = 0 := Int.dvd_iff_tmod_eq_zero.1 hdvd
    simp [hdvd, hmod]
  · have hmod : x.tmod y ≠ 0 := fun h => hdvd (Int.dvd_iff_tmod_eq_zero.2 h)
    rw [if_neg hdvd]
    rcases Int.lt_or_gt_of_ne hy with hneg | hpos
    · have hy' : ¬ 0 ≤ y := by omega
      by_cases hx : 0 ≤ x
      · have hx' : ¬ x < 0 := by omega
        simp [hmod, hneg, hx, hx', hy']
      · have hx' : x < 0 := by omega
        simp [hneg, hx, hx', hy', Int.sign_eq_neg_one_of_neg hneg]
    · have hy' : 0 ≤ y := by omega
      have hneg : ¬ y < 0 := by omega
      by_cases hx : 0 ≤ x
      · have hx' : ¬ x < 0 := by omega
        simp [hneg, hx, hx', hy']
      · have hx' : x < 0 := by omega
        simp [hmod, hneg, hx, hx', hy', Int.sign_eq_one_of_pos hpos]

/-- The floored remainder is the truncated one, plus the divisor if the two differ in sign. -/
theorem fmod_eq (x y : Int) :
    x.fmod y =
      if x.tmod y ≠ 0 ∧ (x.tmod y < 0 ↔ ¬ y < 0) then x.tmod y + y else x.tmod y := by
  rw [Int.fmod_eq_tmod]
  by_cases hdvd : y ∣ x
  · have hmod : x.tmod y = 0 := Int.dvd_iff_tmod_eq_zero.1 hdvd
    simp [hdvd, hmod]
  · have hmod : x.tmod y ≠ 0 := fun h => hdvd (Int.dvd_iff_tmod_eq_zero.2 h)
    rw [if_neg hdvd]
    by_cases hx : 0 ≤ x
    · have hr : 0 ≤ x.tmod y := Int.tmod_nonneg y hx
      by_cases hy' : 0 ≤ y
      · rw [if_pos hx, if_pos hy', if_neg (by omega)]
        omega
      · rw [if_pos hx, if_neg hy', if_pos (by omega)]
    · have hr : 0 ≤ (-x).tmod y := Int.tmod_nonneg y (by omega)
      rw [Int.neg_tmod] at hr
      by_cases hy' : 0 ≤ y
      · rw [if_neg hx, if_pos hy', if_pos (by omega)]
        omega
      · rw [if_neg hx, if_neg hy', if_neg (by omega)]
        omega

/-! ## Arithmetic -/

/-- A word is told by its integer. -/
theorem ofInt_eq {n : Int} {w : Int32} (h : n.bmod (2 ^ 32) = w.toInt) : Int32.ofInt n = w :=
  (Int32.ofInt_eq_iff_bmod_eq_toInt n w).2 h

variable (a b : Int32)

/-- Words add up modulo their width. -/
theorem add_eq : a + b = Int32.ofInt (a.toInt + b.toInt) := by
  rw [Int32.ofInt_add, Int32.ofInt_toInt, Int32.ofInt_toInt]

theorem sub_eq : a - b = Int32.ofInt (a.toInt - b.toInt) := by
  rw [Int32.ofInt_sub, Int32.ofInt_toInt, Int32.ofInt_toInt]

theorem mul_eq : a * b = Int32.ofInt (a.toInt * b.toInt) := by
  rw [Int32.ofInt_mul, Int32.ofInt_toInt, Int32.ofInt_toInt]

theorem neg_eq : -a = Int32.ofInt (-a.toInt) := by
  rw [Int32.ofInt_neg, Int32.ofInt_toInt]

/-- Words divide towards zero. -/
theorem div_eq : a / b = Int32.ofInt (a.toInt.tdiv b.toInt) :=
  (ofInt_eq (Int32.toInt_div a b).symm).symm

theorem mod_eq : a % b = Int32.ofInt (a.toInt.tmod b.toInt) := by
  rw [← Int32.toInt_mod, Int32.ofInt_toInt]

theorem not_eq : ~~~a = Int32.ofInt (-a.toInt - 1) :=
  (ofInt_eq (Int32.toInt_not a).symm).symm

variable {a b}

theorem toInt_eq_zero : a.toInt = 0 ↔ a = 0 := by
  rw [← Int32.toInt_zero, Int32.toInt_inj]

theorem lt_zero : a < 0 ↔ a.toInt < 0 := by
  rw [Int32.lt_iff_toInt_lt, Int32.toInt_zero]

theorem mod_ne_zero : a % b ≠ 0 ↔ a.toInt.tmod b.toInt ≠ 0 := by
  rw [← Int32.toInt_mod, Ne, Ne, toInt_eq_zero]

theorem abs_eq : (if a < 0 then -a else a) = Int32.ofInt a.toInt.natAbs := by
  by_cases h : a < 0
  · have hneg : a.toInt < 0 := lt_zero.1 h
    rw [if_pos h, neg_eq, Int.ofNat_natAbs_of_nonpos (Int.le_of_lt hneg)]
  · have hnonneg : 0 ≤ a.toInt := Int.not_lt.1 fun hneg => h (lt_zero.2 hneg)
    rw [if_neg h, Int.natAbs_of_nonneg hnonneg, Int32.ofInt_toInt]

theorem sign_eq : (if a < 0 then -1 else if a = 0 then 0 else 1) = Int32.ofInt a.toInt.sign := by
  by_cases h : a < 0
  · rw [if_pos h, Int.sign_eq_neg_one_of_neg (lt_zero.1 h)]
    rfl
  · by_cases h0 : a = 0
    · rw [if_neg h, if_pos h0, h0]
      rfl
    · have hpos : 0 < a.toInt := by
        have hne : a.toInt ≠ 0 := fun hz => h0 (toInt_eq_zero.1 hz)
        have hnn : ¬ a.toInt < 0 := fun hneg => h (lt_zero.2 hneg)
        omega
      rw [if_neg h, if_neg h0, Int.sign_eq_one_of_pos hpos]
      rfl

theorem max_eq : (if a < b then b else a) = Int32.ofInt (max a.toInt b.toInt) := by
  by_cases h : a < b
  · rw [if_pos h, Int.max_eq_right (Int.le_of_lt (Int32.lt_iff_toInt_lt.1 h)), Int32.ofInt_toInt]
  · have hle : b.toInt ≤ a.toInt := Int.not_lt.1 fun hlt => h (Int32.lt_iff_toInt_lt.2 hlt)
    rw [if_neg h, Int.max_eq_left hle, Int32.ofInt_toInt]

theorem min_eq : (if a < b then a else b) = Int32.ofInt (min a.toInt b.toInt) := by
  by_cases h : a < b
  · rw [if_pos h, Int.min_eq_left (Int.le_of_lt (Int32.lt_iff_toInt_lt.1 h)), Int32.ofInt_toInt]
  · have hle : b.toInt ≤ a.toInt := Int.not_lt.1 fun hlt => h (Int32.lt_iff_toInt_lt.2 hlt)
    rw [if_neg h, Int.min_eq_right hle, Int32.ofInt_toInt]

/-- When a shader corrects a truncated result, in terms of integers. -/
theorem correction_iff {c : Int32} :
    (decide (a % b ≠ 0) && (decide (c < 0) != decide (b < 0))) = true ↔
      a.toInt.tmod b.toInt ≠ 0 ∧ (c.toInt < 0 ↔ ¬ b.toInt < 0) := by
  rw [Bool.and_eq_true, decide_eq_true_eq, mod_ne_zero, ← lt_zero, ← lt_zero]
  by_cases hc : c < 0 <;> by_cases hb : b < 0 <;> simp [hc, hb]

/-- The quotient that a shader corrects is the floored one. -/
theorem floorDiv_eq (hb : b ≠ 0) :
    (if decide (a % b ≠ 0) && (decide (a < 0) != decide (b < 0)) then a / b - 1 else a / b) =
      Int32.ofInt (a.toInt.fdiv b.toInt) := by
  rw [fdiv_eq fun h => hb (toInt_eq_zero.1 h)]
  simp only [correction_iff]
  split
  · rw [div_eq, Int32.ofInt_sub]
    rfl
  · rw [div_eq]

/-- The remainder that a shader corrects is the one with the sign of the divisor. -/
theorem floorMod_eq (a b : Int32) :
    (if decide (a % b ≠ 0) && (decide (a % b < 0) != decide (b < 0)) then a % b + b else a % b) =
      Int32.ofInt (a.toInt.fmod b.toInt) := by
  rw [fmod_eq]
  simp only [correction_iff, Int32.toInt_mod]
  split
  · rw [mod_eq, Int32.ofInt_add, Int32.ofInt_toInt]
  · rw [mod_eq]

/-! ## Shifts -/

theorem toNat_toUInt32 (a : Int32) : (a.toUInt32.toNat : Int) = a.toInt % 2 ^ 32 := by
  rw [← Int32.toNat_toBitVec, ← Int32.toInt_toBitVec, BitVec.toInt_eq_toNat_bmod]
  have hlt : a.toBitVec.toNat < 2 ^ 32 := a.toBitVec.isLt
  have hmod : (a.toBitVec.toNat : Int).bmod (2 ^ 32) % (2 ^ 32 : Nat) =
      (a.toBitVec.toNat : Int) % (2 ^ 32 : Nat) := Int.bmod_emod
  omega

/-- The amount that a shader takes from a word is the one a kernel takes from the integer. -/
theorem shiftAmount_eq (b : Int32) : b.toUInt32.toNat % 32 = shiftAmount b := by
  have h := toNat_toUInt32 b
  rw [shiftAmount]
  omega

/-- A shift to the left multiplies. -/
theorem shiftLeft_eq (a : Int32) (k : Nat) :
    Int32.ofBitVec (a.toBitVec <<< k) = Int32.ofInt (a.toInt * 2 ^ k) := by
  refine (ofInt_eq ?_).symm
  rw [Int32.toInt_ofBitVec, BitVec.toInt_shiftLeft, ← Int32.toInt_toBitVec,
    BitVec.toInt_eq_toNat_bmod, Int.bmod_mul_bmod, Nat.shiftLeft_eq]
  push_cast
  rfl

/-- A shift to the right divides. -/
theorem shiftRight_eq (a : Int32) (k : Nat) :
    Int32.ofBitVec (a.toBitVec.sshiftRight k) = Int32.ofInt (a.toInt / 2 ^ k) := by
  rw [← Int32.ofInt_bitVecToInt, BitVec.toInt_sshiftRight, Int32.toInt_toBitVec,
    Int.shiftRight_eq_div_pow]
  push_cast
  rfl

theorem logicalShiftRight_eq (a : Int32) (k : Nat) :
    (UInt32.ofBitVec (a.toUInt32.toBitVec >>> k)).toInt32 =
      Int32.ofInt ((a.toInt % wordLimit) / 2 ^ k) := by
  have hword : (wordLimit : Int) = 2 ^ 32 := by decide
  refine (ofInt_eq ?_).symm
  rw [hword, ← toNat_toUInt32, ← Int32.toInt_toBitVec, UInt32.toBitVec_toInt32,
    BitVec.toInt_eq_toNat_bmod]
  congr 1
  rw [BitVec.toNat_ushiftRight, Nat.shiftRight_eq_div_pow]
  push_cast
  rfl

end WgslKernel.Words
