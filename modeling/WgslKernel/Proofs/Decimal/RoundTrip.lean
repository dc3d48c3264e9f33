import Mathlib.Algebra.Field.Rat
import Mathlib.Data.List.TakeWhile
import Mathlib.Tactic.FieldSimp
import WgslKernel.Proofs.Decimal.Numerals
import WgslKernel.Proofs.Decimal.Rounding

/-!
# Texts of floats read back

`Binary32.reading` reads the text of a magnitude as a decimal, with the digits that the text shows.
Since the shortest decimal of a float is in the rounding interval of that float alone, two floats
have the same text only if they are the same float or both NaN.
-/

namespace WgslKernel

open List

/-- The number that a decimal stands for. -/
def Decimal.toRat (d : Decimal) : ℚ := d.digits * 10 ^ d.exponent

namespace Binary32

variable {bits bits' : UInt32} {d : Decimal} {cs whole fraction : List Char} {x : Int}

/-! ## Reading a magnitude -/

/-- A signed whole number. -/
def signed : List Char → Int
  | '-' :: digits => -(Nat.ofDigitChars 10 digits 0 : Int)
  | digits => Nat.ofDigitChars 10 digits 0

/-- `mantissa · 10 ^ exponent`: the digits on both sides of the point, shifted by those after it. -/
def shifted (mantissa : List Char) (exponent : Int) : Decimal :=
  let whole := mantissa.takeWhile (· != '.')
  let fraction := (mantissa.dropWhile (· != '.')).drop 1
  ⟨Nat.ofDigitChars 10 (whole ++ fraction) 0, exponent - fraction.length⟩

/-- The decimal that the text of a magnitude is read as. -/
def reading (cs : List Char) : Decimal :=
  shifted (cs.takeWhile (· != 'e')) (signed ((cs.dropWhile (· != 'e')).drop 1))

theorem ne_of_isDigit (h : ∀ c ∈ cs, c.isDigit = true) {d : Char} (hd : d.isDigit = false) :
    ∀ c ∈ cs, (c != d) = true := by
  intro c hc
  rw [bne_iff_ne]
  rintro rfl
  rw [h c hc] at hd
  cases hd

theorem signed_of_isDigit (h : ∀ c ∈ cs, c.isDigit = true) :
    signed cs = Nat.ofDigitChars 10 cs 0 := by
  unfold signed
  split
  · have hminus := h '-' mem_cons_self
    cases hminus
  · rfl

@[simp] theorem signed_repr (n : Int) : signed n.repr.toList = n := by
  cases n with
  | ofNat n =>
    have htext : (Int.ofNat n).repr = n.repr := rfl
    rw [htext, Nat.toList_repr, signed_of_isDigit fun _ => isDigit_toDigits,
      Nat.ofDigitChars_ten_toDigits]
    rfl
  | negSucc n =>
    have htext : (Int.negSucc n).repr = "-" ++ (n + 1).repr := rfl
    have hminus : "-".toList = ['-'] := String.toList_ofList
    rw [htext, String.toList_append, Nat.toList_repr, hminus, cons_append, nil_append,
      signed, Nat.ofDigitChars_ten_toDigits]
    rfl

theorem shifted_whole (h : ∀ c ∈ whole, c.isDigit = true) :
    shifted whole x = ⟨Nat.ofDigitChars 10 whole 0, x⟩ := by
  have hne := ne_of_isDigit h (d := '.') (by decide)
  rw [shifted, takeWhile_eq_self_iff.2 hne, dropWhile_eq_nil_iff.2 hne]
  simp

theorem shifted_point (h : ∀ c ∈ whole, c.isDigit = true) :
    shifted (whole ++ '.' :: fraction) x =
      ⟨Nat.ofDigitChars 10 (whole ++ fraction) 0, x - fraction.length⟩ := by
  have hne := ne_of_isDigit h (d := '.') (by decide)
  rw [shifted, takeWhile_append_of_pos hne, dropWhile_append_of_pos hne]
  simp

theorem reading_plain (h : ∀ c ∈ cs, (c != 'e') = true) : reading cs = shifted cs 0 := by
  rw [reading, takeWhile_eq_self_iff.2 h, dropWhile_eq_nil_iff.2 h]
  rfl

/-- An exponent moves the point. -/
theorem reading_exponent (h : ∀ c ∈ cs, (c != 'e') = true) :
    reading (cs ++ 'e' :: x.repr.toList) = shifted cs x := by
  rw [reading, takeWhile_append_of_pos h, dropWhile_append_of_pos h]
  simp

theorem Spread.toRat_eq (h : Spread ⟨d.digits, d.exponent - x⟩ whole fraction) :
    Decimal.toRat ⟨Nat.ofDigitChars 10 (whole ++ fraction) 0, x - fraction.length⟩ = d.toRat := by
  obtain ⟨-, a, b, hdigits, hlength⟩ := h
  have hexponent : x - fraction.length = d.exponent - b := by
    rw [hlength]
    ring
  rw [hdigits, hexponent, Nat.ofDigitChars_append, Nat.ofDigitChars_append,
    Nat.ofDigitChars_replicate_zero, Nat.ofDigitChars_replicate_zero, Nat.mul_zero,
    Nat.ofDigitChars_ten_toDigits, Decimal.toRat, Decimal.toRat, zpow_sub₀ (by norm_num)]
  push_cast
  rw [zpow_natCast]
  field_simp

theorem Spread.ne_exponent (h : Spread d whole fraction) :
    ∀ c ∈ whole ++ '.' :: fraction, (c != 'e') = true := by
  obtain ⟨hw, hf⟩ := h.isDigit
  rw [forall_mem_append, forall_mem_cons]
  exact ⟨ne_of_isDigit hw rfl, rfl, ne_of_isDigit hf rfl⟩

/-- **What shows a decimal is read as that number.** -/
theorem Shows.toRat_reading (h : Shows d cs) : (reading cs).toRat = d.toRat := by
  cases h with
  | point h =>
    rw [reading_plain h.ne_exponent, shifted_point h.isDigit.1]
    exact Spread.toRat_eq (by rwa [sub_zero])
  | @exponent whole x h =>
    rw [reading_exponent (ne_of_isDigit h.isDigit.1 rfl), shifted_whole h.isDigit.1]
    simpa using h.toRat_eq
  | both h =>
    rw [reading_exponent h.ne_exponent, shifted_point h.isDigit.1]
    exact h.toRat_eq

/-! ## Floats with the same text -/

/-- The text of a magnitude stands for a decimal in its rounding interval. -/
theorem toRat_magnitudeText (h : magnitude bits ≠ 0) : ∃ n : Nat, 0 < n ∧
    (reading (magnitudeText bits).toList).toRat * 10 ^ places = n ∧
    (interval bits).contains (n * (interval bits).unit) = true := by
  obtain ⟨c, k, hdecimal, hpos, hcontains⟩ := exists_decimal h
  refine ⟨c * 10 ^ k, by positivity, ?_, hcontains⟩
  rw [(shows_magnitudeText bits).toRat_reading, shownDecimal, if_neg h, hdecimal, Decimal.toRat,
    zpow_sub₀ (by norm_num)]
  push_cast
  rw [zpow_natCast, zpow_natCast]
  field_simp

/-- The text of zero is read as zero. -/
theorem toRat_zero (h : magnitude bits = 0) : (reading (magnitudeText bits).toList).toRat = 0 := by
  rw [(shows_magnitudeText bits).toRat_reading, shownDecimal, if_pos h, Decimal.toRat,
    Nat.cast_zero, zero_mul]

/-- Equal texts have no smaller magnitude. -/
theorem magnitude_le_of_text_eq (h : magnitudeText bits = magnitudeText bits') :
    magnitude bits ≤ magnitude bits' := by
  by_cases hzero : magnitude bits = 0
  · omega
  obtain ⟨n, hpos, hn, hcontains⟩ := toRat_magnitudeText hzero
  rw [h] at hn
  have hzero' : magnitude bits' ≠ 0 := fun hz => by
    rw [toRat_zero hz, zero_mul] at hn
    exact hpos.ne (by exact_mod_cast hn)
  obtain ⟨n', -, hn', hcontains'⟩ := toRat_magnitudeText hzero'
  have heq : n = n' := by exact_mod_cast hn.symm.trans hn'
  subst heq
  exact magnitude_le_of_contains hzero hcontains hcontains'

/-- The text of a float that is a number, without its sign. -/
def unsignedText (bits : UInt32) : String := if isFinite bits then magnitudeText bits else "inf"

theorem unsignedText_cons (bits : UInt32) :
    ∃ d ds, (unsignedText bits).toList = d :: ds ∧ d.isDigit = isFinite bits ∧ d ≠ '-' ∧
      d ≠ 'N' := by
  unfold unsignedText
  split
  · rename_i hfinite
    obtain ⟨d, ds, hds, hd⟩ := (shows_magnitudeText bits).exists_cons
    refine ⟨d, ds, hds, by rw [hd, hfinite], ?_, ?_⟩ <;>
    · rintro rfl
      cases hd
  · rename_i hfinite
    rw [Bool.not_eq_true] at hfinite
    exact ⟨'i', _, String.toList_ofList, by rw [hfinite]; rfl, by decide, by decide⟩

/-- All NaNs have one text. -/
theorem text_nan (h : isNaN bits = true) : text bits = "NaN" := by rw [text, if_pos h]

theorem toList_text (h : ¬isNaN bits = true) :
    (text bits).toList = (if isNegative bits then ['-'] else []) ++ (unsignedText bits).toList := by
  have htext : text bits = (if isNegative bits then "-" else "") ++ unsignedText bits := by
    rw [text, if_neg h, unsignedText]
    dsimp only
    split <;> rfl
  rw [htext, String.toList_append]
  congr 1
  split
  · exact String.toList_ofList
  · rfl

theorem text_ne_nan (h : ¬isNaN bits = true) : text bits ≠ "NaN" := by
  intro heq
  obtain ⟨d, ds, hds, -, -, hd⟩ := unsignedText_cons bits
  have hnan : "NaN".toList = ['N', 'a', 'N'] := String.toList_ofList
  have htext := congrArg String.toList heq
  rw [toList_text h, hds, hnan] at htext
  split at htext
  · cases htext
  · exact hd (List.cons.inj htext).1

/-- A text shows the sign, and the text without it. -/
theorem sign_of_text_eq (h : ¬isNaN bits = true) (h' : ¬isNaN bits' = true)
    (heq : text bits = text bits') :
    isNegative bits = isNegative bits' ∧ unsignedText bits = unsignedText bits' := by
  obtain ⟨d, ds, hds, -, hd, -⟩ := unsignedText_cons bits
  obtain ⟨d', ds', hds', -, hd', -⟩ := unsignedText_cons bits'
  have htext := congrArg String.toList heq
  rw [toList_text h, toList_text h'] at htext
  cases hsign : isNegative bits <;> cases hsign' : isNegative bits' <;>
    simp only [hsign, hsign', Bool.false_eq_true, if_true, if_false, nil_append,
      cons_append] at htext
  · exact ⟨rfl, String.toList_inj.1 htext⟩
  · rw [hds] at htext
    exact absurd (List.cons.inj htext).1 hd
  · rw [hds'] at htext
    exact absurd (List.cons.inj htext).1.symm hd'
  · exact ⟨rfl, String.toList_inj.1 (List.cons.inj htext).2⟩

/-- A float that is neither finite nor NaN is an infinity. -/
theorem magnitude_infinite (h : ¬isNaN bits = true) (hfinite : isFinite bits = false) :
    magnitude bits = 0x7f800000 := by
  have hlt : magnitude bits < 0x80000000 := Nat.mod_lt _ (by decide)
  rw [isNaN, Bool.and_eq_true, beq_iff_eq, bne_iff_ne, exponentField, fraction] at h
  rw [isFinite, exponentField, decide_eq_false_iff_not] at hfinite
  omega

/-- Sign and magnitude make up a float. -/
theorem eq_of_magnitude_eq (hsign : isNegative bits = isNegative bits')
    (h : magnitude bits = magnitude bits') : bits = bits' := by
  have hlt := bits.toNat_lt
  have hlt' := bits'.toNat_lt
  rw [isNegative, isNegative, decide_eq_decide] at hsign
  rw [magnitude, magnitude] at h
  rw [← UInt32.toNat_inj]
  omega

/-- **Different floats have different texts**, NaN apart. -/
theorem eq_of_text_eq (h : text bits = text bits') :
    bits = bits' ∨ isNaN bits = true ∧ isNaN bits' = true := by
  by_cases hnan : isNaN bits = true
  · by_cases hnan' : isNaN bits' = true
    · exact .inr ⟨hnan, hnan'⟩
    · exact absurd (h.symm.trans (text_nan hnan)) (text_ne_nan hnan')
  by_cases hnan' : isNaN bits' = true
  · exact absurd (h.trans (text_nan hnan')) (text_ne_nan hnan)
  obtain ⟨hsign, hunsigned⟩ := sign_of_text_eq hnan hnan' h
  refine .inl (eq_of_magnitude_eq hsign ?_)
  have hfinite : isFinite bits = isFinite bits' := by
    obtain ⟨d, ds, hds, hd, -⟩ := unsignedText_cons bits
    obtain ⟨d', ds', hds', hd', -⟩ := unsignedText_cons bits'
    rw [hunsigned, hds'] at hds
    rw [← hd, ← hd', (List.cons.inj hds).1]
  cases hf : isFinite bits with
  | true =>
    rw [unsignedText, unsignedText, ← hfinite, hf] at hunsigned
    exact Nat.le_antisymm (magnitude_le_of_text_eq hunsigned)
      (magnitude_le_of_text_eq hunsigned.symm)
  | false =>
    rw [magnitude_infinite hnan hf, magnitude_infinite hnan' (hfinite.symm.trans hf)]

end Binary32

end WgslKernel
