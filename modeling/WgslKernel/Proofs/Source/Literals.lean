import WgslKernel.Proofs.Decimal.Nearest
import WgslKernel.Proofs.Semantics.Words
import WgslKernel.Proofs.Simulation.Agreement
import WgslKernel.Proofs.Source.Lowering

/-!
# What constants denote

`Source.Denotes` gives the text of a constant its meaning: it is split into tokens, the tokens make
up a tree, and the tree is evaluated as the shading language says.  A literal has to be in range by
itself, before a minus sign applies to it.
-/

namespace WgslKernel

open Binary32

namespace Source

variable {cs : List Char} {d : Datum} {n : Nat}

/-! ## Literals -/

/-- What a literal denotes.  Its last character tells its kind. -/
def LiteralDenotes (cs : List Char) (d : Datum) : Prop :=
  match cs.getLast? with
  | some 'i' => ∃ (n : Nat) (v : Int32), cs.dropLast = Nat.toDigits 10 n ∧ n < 2 ^ 31 ∧
      v.toInt = n ∧ d = .int v
  | some 'u' => ∃ hs w, cs.dropLast = '0' :: 'x' :: hs ∧ hs ≠ [] ∧
      (∀ c ∈ hs, isHexDigit c = true) ∧ hexValue hs = w.toNat ∧ d = .word w
  | some 'f' => ∃ numeral bits, Numeral.ofChars cs.dropLast = some numeral ∧
      numeral.next? 'f' = some .suffixed ∧ isFinite bits = true ∧ isNegative bits = false ∧
      RoundsTo (reading cs.dropLast).toRat (magnitude bits) ∧ d = .float bits
  | _ => ∃ n : Nat, cs = Nat.toDigits 10 n ∧ d = .abstract n

/-- The negative of a number. -/
def negative? : Datum → Option Datum
  | .int v => some (.int (-v))
  | .abstract v => some (.abstract (-v))
  | .float bits => some (.float (bits + 0x80000000))
  | _ => none

/-- What the tree of a constant denotes. -/
def Tree.Denotes : Tree → Datum → Prop
  | .literal cs, d => LiteralDenotes cs d
  | .unary '-' t, d => ∃ d', t.Denotes d' ∧ negative? d' = some d
  | .call f (.more t .nothing), d =>
    f = .name "i32".toList ∧ (∃ v, t.Denotes (.abstract v) ∧
      Datum.convert .i32 (.abstract v) = .done d) ∨
    f = .template "bitcast".toList (.more (.name "f32".toList) .nothing) ∧
      ∃ w, t.Denotes (.word w) ∧ Datum.bitcast .f32 (.word w) = .done d
  | _, _ => False

/-- What a text denotes, read as an expression. -/
def Denotes (text : String) (d : Datum) : Prop :=
  ∃ t, Derives .expression (tokens text) t ∧ t.Denotes d

attribute [local simp] Tree.Denotes

theorem denotes_text {e : Expr} (h : e.fits .unary = true) :
    Denotes e.text d ↔ e.tree.Denotes d := by
  have hfits := Expr.fits_of_unary (c := .expression) h (by decide)
  simp [Denotes, Expr.tokens_text hfits, Expr.derives_iff hfits (by decide)]

/-- A signed literal has to be in range. -/
theorem literal_int : LiteralDenotes (Nat.toDigits 10 n ++ ['i']) d ↔
    n < 2 ^ 31 ∧ ∃ v : Int32, v.toInt = n ∧ d = .int v := by
  simp only [LiteralDenotes, List.getLast?_concat, List.dropLast_concat]
  constructor
  · rintro ⟨k, v, heq, hk, hv, rfl⟩
    obtain rfl := toDigits_inj heq
    exact ⟨hk, v, hv, rfl⟩
  · rintro ⟨hn, v, hv, rfl⟩
    exact ⟨n, v, rfl, hn, hv, rfl⟩

theorem literal_abstract : LiteralDenotes (Nat.toDigits 10 n) d ↔ d = .abstract n := by
  have hlast : ∀ c ∈ (Nat.toDigits 10 n).getLast?, c.isDigit = true := fun c hc =>
    isDigit_toDigits (List.mem_of_getLast? hc)
  unfold LiteralDenotes
  split
  · rename_i heq
    cases hlast _ heq
  · rename_i heq
    cases hlast _ heq
  · rename_i heq
    cases hlast _ heq
  · constructor
    · rintro ⟨k, heq, rfl⟩
      rw [toDigits_inj heq]
    · rintro rfl
      exact ⟨n, rfl, rfl⟩

theorem hexValue_hexDigits (count n : Nat) : hexValue (hexDigits count n) = n % 16 ^ count := by
  induction count generalizing n with
  | zero => simp [hexDigits, hexValue, Nat.mod_one]
  | succ count ih =>
    have happend : hexValue (hexDigits (count + 1) n) =
        16 * hexValue (hexDigits count (n / 16)) + hexDigit (Nat.digitChar (n % 16)) := by
      simp [hexDigits, hexValue]
    rw [happend, ih, hexDigit_digitChar _ (Nat.mod_lt n (by decide)), Nat.pow_succ,
      Nat.mul_comm (16 ^ count), Nat.mod_mul, Nat.add_comm]

theorem literal_pattern {bits : UInt32} :
    LiteralDenotes ('0' :: 'x' :: hexDigits 8 bits.toNat ++ ['u']) d ↔ d = .word bits := by
  have hvalue : hexValue (hexDigits 8 bits.toNat) = bits.toNat := by
    rw [hexValue_hexDigits]
    exact Nat.mod_eq_of_lt bits.toNat_lt
  simp only [LiteralDenotes, List.getLast?_concat, List.dropLast_concat]
  constructor
  · rintro ⟨hs, w, heq, -, -, hw, rfl⟩
    cases heq
    rw [UInt32.toNat_inj.1 (hvalue.symm.trans hw)]
  · rintro rfl
    exact ⟨_, bits, rfl, by simp [hexDigits], Literal.isHexDigit_hexDigits 8 _, hvalue, rfl⟩

/-- A float literal is its nearest float. -/
theorem literal_float {bits : UInt32} (hfinite : isFinite bits = true) :
    LiteralDenotes ((magnitudeText bits).toList ++ ['f']) d ↔
      ∃ b, magnitude b = magnitude bits ∧ isNegative b = false ∧ d = .float b := by
  simp only [LiteralDenotes, List.getLast?_concat, List.dropLast_concat]
  constructor
  · rintro ⟨-, b, -, -, hb, hsign, hrounds, rfl⟩
    exact ⟨b, hrounds.unique (roundsTo_magnitudeText hfinite) (magnitude_lt hb)
      (magnitude_lt hfinite), hsign, rfl⟩
  · rintro ⟨b, hmagnitude, hsign, rfl⟩
    obtain ⟨numeral, hnumeral, hsuffix⟩ := ofChars_magnitudeText bits
    refine ⟨numeral, b, hnumeral, hsuffix, ?_, hsign, ?_, rfl⟩
    · rwa [isFinite, exponentField, hmagnitude]
    · rw [hmagnitude]
      exact roundsTo_magnitudeText hfinite

/-! ## Constants -/

theorem denotes_int {v : Int32} (hv : v ≠ Int32.minValue) :
    (Expr.int v.toInt).tree.Denotes d ↔ d = .int v := by
  have hlow := v.minValue_le_toInt
  have hhigh := v.toInt_le
  have hne : v.toInt ≠ Int32.minValue.toInt := fun h => hv (Int32.toInt_inj.1 h)
  simp only [Int32.toInt_minValue, Int32.toInt_maxValue] at hlow hhigh hne
  have htree : (Expr.int v.toInt).tree = if v.toInt < 0
      then .unary '-' (.literal (Nat.toDigits 10 v.toInt.natAbs ++ ['i']))
      else .literal (Nat.toDigits 10 v.toInt.natAbs ++ ['i']) := by
    simp [Expr.int, Expr.tree, Literal.tree, Literal.isNegative, Literal.digits]
  rw [htree]
  split
  · simp only [Tree.Denotes, literal_int]
    have hneg : (-v).toInt = -v.toInt := by
      rw [Words.neg_eq, Int32.toInt_ofInt_of_le (by omega) (by omega)]
    constructor
    · rintro ⟨-, ⟨-, u, hu, rfl⟩, hd⟩
      obtain rfl : u = -v := Int32.toInt_inj.1 (by omega)
      cases hd
      rw [Int32.neg_neg]
    · rintro rfl
      exact ⟨.int (-v), ⟨by omega, -v, by omega, rfl⟩, by rw [negative?, Int32.neg_neg]⟩
  · rw [Tree.Denotes, literal_int]
    constructor
    · rintro ⟨-, w, hw, rfl⟩
      rw [Int32.toInt_inj.1 (show w.toInt = v.toInt by omega)]
    · rintro rfl
      exact ⟨by omega, v, by omega, rfl⟩

/-- The least integer is a conversion. -/
theorem denotes_least : (Expr.ofInt32 Int32.minValue).tree.Denotes d ↔ d = .int Int32.minValue := by
  have htree : (Expr.ofInt32 Int32.minValue).tree = .call (.name "i32".toList)
      (.more (.unary '-' (.literal (Nat.toDigits 10 2147483648))) .nothing) := rfl
  have hvalue (v : Int) : Tree.Denotes (.unary '-' (.literal (Nat.toDigits 10 2147483648)))
      (.abstract v) ↔ v = -2147483648 := by
    simp only [Tree.Denotes, literal_abstract, exists_eq_left, negative?, Option.some.injEq,
      Datum.abstract.injEq]
    exact eq_comm
  rw [htree, Tree.Denotes]
  simp only [hvalue, exists_eq_left, true_and, reduceCtorEq, false_and, or_false]
  rw [eq_comm (a := d), show Datum.convert .i32 (.abstract (-2147483648)) =
    .done (.int Int32.minValue) from rfl, Run.done.injEq]

/-- A finite float denotes itself. -/
theorem denotes_finite {bits : UInt32} (hfinite : isFinite bits = true) :
    (Expr.lit (.float bits)).tree.Denotes d ↔ d = .float bits := by
  have htree : (Expr.lit (.float bits)).tree = if isNegative bits
      then .unary '-' (.literal ((magnitudeText bits).toList ++ ['f']))
      else .literal ((magnitudeText bits).toList ++ ['f']) := rfl
  have hflip (b : UInt32) : magnitude (b + 0x80000000) = magnitude b ∧
      isNegative (b + 0x80000000) = !isNegative b := by
    have hadd : (b + 0x80000000).toNat = (b.toNat + 0x80000000) % 2 ^ 32 := UInt32.toNat_add _ _
    have hlt := b.toNat_lt
    rw [magnitude, isNegative, isNegative, hadd, magnitude, ← decide_not, decide_eq_decide]
    omega
  rw [htree]
  split
  · rename_i hsign
    simp only [Tree.Denotes, literal_float hfinite]
    constructor
    · rintro ⟨-, ⟨b, hmagnitude, hpos, rfl⟩, hd⟩
      cases hd
      obtain ⟨hmagnitude', hneg⟩ := hflip b
      rw [eq_of_magnitude_eq (by rw [hneg, hpos, hsign]; rfl) (hmagnitude'.trans hmagnitude)]
    · rintro rfl
      obtain ⟨hmagnitude, hneg⟩ := hflip bits
      refine ⟨_, ⟨_, hmagnitude, by rw [hneg, hsign]; rfl, rfl⟩, ?_⟩
      rw [negative?, UInt32.add_assoc]
      exact congrArg (some ∘ Datum.float) (UInt32.add_zero bits)
  · rename_i hsign
    rw [Bool.not_eq_true] at hsign
    rw [Tree.Denotes, literal_float hfinite]
    constructor
    · rintro ⟨b, hmagnitude, hpos, rfl⟩
      rw [eq_of_magnitude_eq (hpos.trans hsign.symm) hmagnitude]
    · rintro rfl
      exact ⟨bits, rfl, hsign, rfl⟩

theorem denotes_pattern {bits : UInt32} :
    (Expr.bitcast ⟨.f32, 1⟩ (.lit (.pattern bits))).tree.Denotes d ↔ d = .float bits := by
  have htree : (Expr.bitcast ⟨.f32, 1⟩ (.lit (.pattern bits))).tree =
      .call (.template "bitcast".toList (.more (.name "f32".toList) .nothing))
        (.more (.literal ('0' :: 'x' :: hexDigits 8 bits.toNat ++ ['u'])) .nothing) := rfl
  rw [htree, Tree.Denotes]
  simp only [Tree.Denotes, literal_pattern, reduceCtorEq, false_and, false_or, true_and,
    Datum.word.injEq, exists_eq_left, Datum.bitcast, Run.done.injEq]
  exact eq_comm

end Source

open Source Codegen

/-- **Constants are exact.**  The text of a constant denotes that constant and nothing else.  The
text of a finite float shows, between a sign and the suffix, a decimal with as few digits as any
that rounds to the float. -/
theorem Const.text_denotes :
    (∀ (c : Const) (d : Datum), Denotes (Value.ofConst c).expr.text d ↔ d = .ofConst c) ∧
    ∀ bits, isFinite bits = true → ∃ cs shown,
      (Value.ofConst (.f32 bits)).expr.text.toList =
        (if isNegative bits then ['-'] else []) ++ (cs ++ ['f']) ∧ Shows shown cs ∧
      ∀ (d p : Nat) (j : Int), d < 10 ^ p → RoundsTo (d * 10 ^ j) (magnitude bits) →
        shown.digits < 10 ^ p := by
  refine ⟨fun c d => ?_, fun bits hfinite => ?_⟩
  · rw [denotes_text (Operand.const c).fits]
    cases c with
    | i32 v =>
      by_cases hv : v = Int32.minValue
      · subst hv
        exact denotes_least
      · simp only [Value.ofConst, Expr.ofInt32, if_neg hv]
        exact denotes_int hv
    | f32 bits =>
      simp only [Value.ofConst, Expr.ofFloat]
      split
      · rename_i hfinite
        exact denotes_finite hfinite
      · exact denotes_pattern
  · have htext : (Value.ofConst (.f32 bits)).expr.text = (Literal.float bits).text := by
      simp only [Value.ofConst, Expr.ofFloat, if_pos hfinite]
      rfl
    exact ⟨_, shownDecimal bits, by rw [htext]; exact Literal.toList_text hfinite,
      shows_magnitudeText bits, fun d p j => digits_shownDecimal_lt hfinite⟩

/-- The least integer, a NaN with a payload, and the least float above zero. -/
theorem Const.text_denotes_extremes :
    Denotes "i32(-2147483648)" (.int Int32.minValue) ∧
    (∀ d, Denotes "bitcast<f32>(0xffc00001u)" d ↔ d = .float 0xffc00001) ∧
    isFinite 1 = true ∧ RoundsTo ((1 : Nat) * 10 ^ (-45 : Int)) (magnitude 1) ∧
    ∃ cs shown, (Value.ofConst (.f32 1)).expr.text.toList = cs ++ ['f'] ∧ Shows shown cs ∧
      shown.digits < 10 ^ 1 := by
  have hrounds : RoundsTo ((1 : Nat) * 10 ^ (-45 : Int)) (magnitude 1) := by
    have hone : magnitude 1 = 1 := rfl
    rw [hone, roundsTo_iff (by decide)]
    refine ⟨fun m hm => ?_, (prefers_above Nat.one_lt_two).2 (.inl ?_)⟩
    · obtain rfl : m = 0 := by omega
      exact (prefers_below Nat.one_pos).2 (.inl (by norm_num [value, weight]))
    · norm_num [value, weight]
  obtain ⟨cs, shown, htext, hshows, hleast⟩ := text_denotes.2 1 rfl
  exact ⟨(text_denotes.1 (.i32 Int32.minValue) _).2 rfl, text_denotes.1 (.f32 0xffc00001), rfl,
    hrounds, cs, shown, htext, hshows, hleast 1 1 (-45) (by decide) hrounds⟩

end WgslKernel
