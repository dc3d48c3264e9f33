/-!
# Shortest decimals

The shortest decimal of a number known only up to rounding: among the decimals that lie in an
interval around the number, one with the fewest significant digits, and of those the nearest to
the number.  All quantities are natural numbers over one common denominator, so every comparison
is exact.

For a given number of digits the decimals form a grid, and if any point of the grid lies in the
interval then so does one of the number's two neighbours on it; `candidate?` therefore looks at
those two only.
-/

namespace WgslKernel

/-- The positive decimal `digits · 10 ^ exponent`. -/
structure Decimal where
  digits : Nat
  exponent : Int
  deriving DecidableEq, Repr

/-- A number with the interval of numbers that round to it, all as numerators over `unit`. -/
structure RoundingInterval where
  low : Nat
  value : Nat
  high : Nat
  unit : Nat
  /-- Whether the two ends belong to the interval. -/
  closed : Bool
  deriving DecidableEq, Repr

namespace RoundingInterval

/-- Whether the numerator `x` lies in the interval. -/
def contains (r : RoundingInterval) (x : Nat) : Bool :=
  if r.closed then r.low ≤ x && x ≤ r.high else r.low < x && x < r.high

/-- The number of decimal digits before the point, `0` when there are none. -/
def integerDigits : Nat → Nat → Nat
  | 0, _ => 0
  | fuel + 1, n => if n = 0 then 0 else integerDigits fuel (n / 10) + 1

/-- Of the two multiples of `10 ^ k` around the value the nearer in the interval, over `10 ^ k`. -/
def candidate? (r : RoundingInterval) (k : Nat) : Option Nat :=
  let step := Nat.pow 10 k * r.unit
  let below := r.value / step
  let above := below + 1
  match r.contains (below * step), r.contains (above * step) with
  | true, true =>
    if r.value - below * step < above * step - r.value then some below else some above
  | true, false => some below
  | false, true => some above
  | false, false => none

/-- The first grid among `10 ^ k, 10 ^ (k - 1), …, 1` with a point in the interval. -/
def coarsest (r : RoundingInterval) : Nat → Nat × Nat
  | 0 => ((r.candidate? 0).getD (r.value / r.unit), 0)
  | k + 1 =>
    match r.candidate? (k + 1) with
    | some c => (c, k + 1)
    | none => r.coarsest k

/-- Remove trailing zeros from the digits, counting them. -/
def stripZeros : Nat → Nat → Nat → Nat × Nat
  | 0, c, k => (c, k)
  | fuel + 1, c, k => if c % 10 = 0 then stripZeros fuel (c / 10) (k + 1) else (c, k)

/-- The shortest decimal in the interval.  The value has to be at least `unit`, and the interval
has to hold a whole multiple of `unit`. -/
def shortest (r : RoundingInterval) : Decimal :=
  let whole := r.value / r.unit
  let size := integerDigits (whole + 1) whole
  let (c, k) := r.coarsest (size - 1)
  let (digits, exponent) := stripZeros c c k
  ⟨digits, exponent⟩

end RoundingInterval

end WgslKernel
