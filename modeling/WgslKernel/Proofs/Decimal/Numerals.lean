import WgslKernel.Shader.Expr

/-!
# The texts of numbers

A number is written with few characters: digits, a sign, a point, an exponent, and the letters that
tell its type.  `isNumeric` says so of a text, and it holds of every literal.
-/

namespace WgslKernel

open List

/-- Characters of numbers, whole or not and in any base, with their signs and suffixes. -/
def numeric (c : Char) : Bool := c.isDigit || "-.xabcdefinNu".toList.contains c

/-- All characters are those of numbers. -/
def isNumeric (text : String) : Bool := text.toList.all numeric

@[simp] theorem isNumeric_append (a b : String) :
    isNumeric (a ++ b) = (isNumeric a && isNumeric b) := by
  simp [isNumeric]

theorem isNumeric_ofList {cs : List Char} (h : ∀ c ∈ cs, c.isDigit = true) :
    isNumeric (String.ofList cs) = true := by
  rw [isNumeric, String.toList_ofList, all_eq_true]
  intro c hc
  simp [numeric, h c hc]

theorem isDigit_toDigits {n : Nat} {c : Char} (h : c ∈ Nat.toDigits 10 n) : c.isDigit = true :=
  Nat.isDigit_of_mem_toDigits (by decide) (by decide) h

/-- Digits tell the number. -/
theorem toDigits_inj {n k : Nat} (h : Nat.toDigits 10 n = Nat.toDigits 10 k) : n = k := by
  rw [← Nat.ofDigitChars_ten_toDigits (n := n), h, Nat.ofDigitChars_ten_toDigits]

@[simp] theorem isNumeric_repr (n : Nat) : isNumeric n.repr = true :=
  isNumeric_ofList fun _ => isDigit_toDigits

@[simp] theorem isNumeric_int (n : Int) : isNumeric n.repr = true := by
  cases n with
  | ofNat n => exact isNumeric_repr n
  | negSucc n =>
    have htext : (Int.negSucc n).repr = "-" ++ (n + 1).repr := rfl
    rw [htext, isNumeric_append, isNumeric_repr]
    decide

theorem not_mem_of_isNumeric {text : String} (h : isNumeric text = true) {c : Char}
    (hc : numeric c = false) : c ∉ text.toList := by
  intro hmem
  have := all_eq_true.1 h c hmem
  rw [hc] at this
  cases this

theorem isNumeric_hexDigits (count n : Nat) :
    isNumeric (String.ofList (hexDigits count n)) = true := by
  have hdigit : ∀ d < 16, numeric (Nat.digitChar d) = true := by decide
  rw [isNumeric, String.toList_ofList]
  induction count generalizing n with
  | zero => rfl
  | succ count ih =>
    rw [hexDigits, all_append, ih (n / 16), all_cons, hdigit _ (Nat.mod_lt n (by decide))]
    rfl

/-- The value of a hexadecimal digit. -/
def hexDigit (c : Char) : Nat :=
  if c.isDigit then c.toNat - '0'.toNat
  else if 'a' ≤ c then c.toNat - 'a'.toNat + 10 else c.toNat - 'A'.toNat + 10

/-- The number that hexadecimal digits show. -/
def hexValue (cs : List Char) : Nat := cs.foldl (fun n c => 16 * n + hexDigit c) 0

theorem hexDigit_digitChar : ∀ n < 16, hexDigit (Nat.digitChar n) = n := by decide

namespace Binary32

/-! ## Texts that show a decimal -/

variable {d : Decimal} {cs whole fraction : List Char}

/-- The digits of a decimal on both sides of a point, with zeros around them. -/
def Spread (d : Decimal) (whole fraction : List Char) : Prop :=
  whole ≠ [] ∧ ∃ a b : Nat, whole ++ fraction =
    List.replicate a '0' ++ Nat.toDigits 10 d.digits ++ List.replicate b '0' ∧
    (fraction.length : Int) = b - d.exponent

/-- A text shows a decimal with a point, with an exponent, or with both. -/
inductive Shows (d : Decimal) : List Char → Prop where
  | point {whole fraction : List Char} (h : Spread d whole fraction) :
    Shows d (whole ++ '.' :: fraction)
  | exponent {whole : List Char} {x : Int} (h : Spread ⟨d.digits, d.exponent - x⟩ whole []) :
    Shows d (whole ++ 'e' :: x.repr.toList)
  | both {whole fraction : List Char} {x : Int}
    (h : Spread ⟨d.digits, d.exponent - x⟩ whole fraction) :
    Shows d (whole ++ '.' :: fraction ++ 'e' :: x.repr.toList)

theorem Spread.isDigit (h : Spread d whole fraction) :
    (∀ c ∈ whole, c.isDigit = true) ∧ ∀ c ∈ fraction, c.isDigit = true := by
  obtain ⟨-, a, b, hdigits, -⟩ := h
  rw [← forall_mem_append, hdigits]
  simp only [mem_append, mem_replicate]
  rintro c ((⟨-, rfl⟩ | hc) | ⟨-, rfl⟩)
  · rfl
  · exact isDigit_toDigits hc
  · rfl

theorem take_toDigits_ne_nil {n k : Nat} (hk : 0 < k) : (Nat.toDigits 10 n).take k ≠ [] := by
  rw [Ne, take_eq_nil_iff]
  exact not_or.2 ⟨Nat.ne_of_gt hk, Nat.toDigits_ne_nil⟩

/-- The plain form shows its decimal. -/
theorem shows_positional (d : Decimal) : Shows d (positional d).toList := by
  unfold positional
  dsimp only
  split
  · -- Only a zero before the point.
    generalize hn : (-((Nat.toDigits 10 d.digits).length + d.exponent)).toNat = n
    have htext : ("0." ++ zeros n ++ String.ofList (Nat.toDigits 10 d.digits)).toList =
        ['0'] ++ '.' :: (List.replicate n '0' ++ Nat.toDigits 10 d.digits) := by
      simp [zeros]
    rw [htext]
    refine .point ⟨by simp, n + 1, 0, by simp [replicate_succ], ?_⟩
    simp only [length_append, length_replicate]
    omega
  · split
    · -- Only a zero after the point.
      generalize hn : d.exponent.toNat = n
      have htext : (String.ofList (Nat.toDigits 10 d.digits) ++ zeros n ++ ".0").toList =
          Nat.toDigits 10 d.digits ++ List.replicate n '0' ++ '.' :: ['0'] := by
        simp [zeros]
      rw [htext]
      refine .point ⟨by simp [Nat.toDigits_ne_nil], 0, n + 1, by simp [replicate_succ'], ?_⟩
      simp only [length_singleton]
      omega
    · generalize hn : ((Nat.toDigits 10 d.digits).length + d.exponent).toNat = n
      have htext : (String.ofList ((Nat.toDigits 10 d.digits).take n) ++ "." ++
          String.ofList ((Nat.toDigits 10 d.digits).drop n)).toList =
          (Nat.toDigits 10 d.digits).take n ++ '.' :: (Nat.toDigits 10 d.digits).drop n := by
        simp
      rw [htext]
      refine .point ⟨take_toDigits_ne_nil (by omega), 0, 0, by simp, ?_⟩
      rw [length_drop]
      omega

/-- The form with an exponent shows its decimal. -/
theorem shows_scientific (d : Decimal) : Shows d (scientific d).toList := by
  have hpos : 0 < (Nat.toDigits 10 d.digits).length := Nat.length_toDigits_pos
  unfold scientific
  dsimp only
  generalize hx : ((Nat.toDigits 10 d.digits).length + d.exponent - 1 : Int) = x
  split
  · have htext : (String.ofList (Nat.toDigits 10 d.digits) ++ "e" ++ toString x).toList =
        Nat.toDigits 10 d.digits ++ 'e' :: x.repr.toList := by
      simp [toString]
    rw [htext]
    refine .exponent ⟨Nat.toDigits_ne_nil, 0, 0, by simp, ?_⟩
    simp only [length_nil]
    omega
  · have htext : (String.ofList ((Nat.toDigits 10 d.digits).take 1) ++ "." ++
        String.ofList ((Nat.toDigits 10 d.digits).drop 1) ++ "e" ++ toString x).toList =
        (Nat.toDigits 10 d.digits).take 1 ++ '.' :: (Nat.toDigits 10 d.digits).drop 1 ++
          'e' :: x.repr.toList := by
      simp [toString]
    rw [htext]
    refine .both ⟨take_toDigits_ne_nil Nat.one_pos, 0, 0, by rw [take_append_drop]; simp, ?_⟩
    rw [length_drop]
    dsimp only
    omega

/-- The decimal that the text of a magnitude shows. -/
def shownDecimal (bits : UInt32) : Decimal := if magnitude bits = 0 then ⟨0, -1⟩ else decimal bits

/-- The text of a float shows its decimal. -/
theorem shows_magnitudeText (bits : UInt32) :
    Shows (shownDecimal bits) (magnitudeText bits).toList := by
  unfold magnitudeText shownDecimal
  split
  · have htext : "0.0".toList = ['0'] ++ '.' :: ['0'] := String.toList_ofList
    exact htext ▸ .point ⟨by simp, 1, 0, rfl, rfl⟩
  · split
    · exact shows_positional _
    · exact shows_scientific _

theorem Shows.exists_cons (h : Shows d cs) : ∃ c rest, cs = c :: rest ∧ c.isDigit = true := by
  have hcons {whole fraction rest : List Char} {d : Decimal} (h : Spread d whole fraction) :
      ∃ c rest', whole ++ rest = c :: rest' ∧ c.isDigit = true := by
    obtain ⟨c, whole, rfl⟩ := exists_cons_of_ne_nil h.1
    exact ⟨c, whole ++ rest, rfl, h.isDigit.1 c mem_cons_self⟩
  cases h with
  | point h | exponent h => exact hcons h
  | both h =>
    rw [List.append_assoc]
    exact hcons h

theorem Shows.all_numeric (h : Shows d cs) : cs.all numeric = true := by
  have hdigits {ds : List Char} (h : ∀ c ∈ ds, c.isDigit = true) : ds.all numeric = true := by
    simpa [isNumeric] using isNumeric_ofList h
  have hexponent (x : Int) : x.repr.toList.all numeric = true := isNumeric_int x
  cases h <;> rename_i h <;>
    simp +decide only [all_append, all_cons, hdigits h.isDigit.1, hdigits h.isDigit.2, hexponent]

theorem isNumeric_text (bits : UInt32) : isNumeric (text bits) = true := by
  have hmagnitude : isNumeric (magnitudeText bits) = true := (shows_magnitudeText bits).all_numeric
  have hsign : isNumeric (if isNegative bits then "-" else "") = true := by split <;> decide
  unfold text
  split
  · decide
  · dsimp only
    split
    · rw [isNumeric_append, hsign, hmagnitude]
      rfl
    · rw [isNumeric_append, hsign]
      decide

end Binary32

/-- A literal is numeric. -/
theorem Literal.isNumeric_text (l : Literal) : isNumeric l.text = true := by
  cases l with
  | float bits =>
    rw [text, isNumeric_append, Binary32.isNumeric_text]
    decide
  | pattern bits => simp +decide [text, isNumeric_hexDigits]
  | _ => simp +decide [text, toString]

end WgslKernel
