import WgslKernel.Decimal.Shortest

/-!
# Text of 32-bit floats

A float is given by its bit pattern.  Its text is the shortest decimal that reads back as the
same float: positional with at least one digit after the point, or with an exponent when the
magnitude is below `1e-4` or at least `1e16`.
-/

namespace WgslKernel.Binary32

/-! ## Taking a bit pattern apart -/

/-- The pattern without its sign bit. -/
def magnitude (bits : UInt32) : Nat := bits.toNat % 0x80000000

/-- The sign bit. -/
def isNegative (bits : UInt32) : Bool := 0x80000000 ≤ bits.toNat

/-- The biased exponent. -/
def exponentField (bits : UInt32) : Nat := magnitude bits / 0x800000

/-- The fraction bits. -/
def fraction (bits : UInt32) : Nat := magnitude bits % 0x800000

/-- Neither infinite nor a NaN. -/
def isFinite (bits : UInt32) : Bool := exponentField bits < 255

/-- Not a number. -/
def isNaN (bits : UInt32) : Bool := exponentField bits == 255 && fraction bits != 0

/-- A finite float is `± significand · 2 ^ scale · 2 ^ -149`. -/
def significand (bits : UInt32) : Nat :=
  if exponentField bits = 0 then fraction bits else fraction bits + 0x800000

/-- The exponent of two, counted from the subnormals. -/
def scale (bits : UInt32) : Nat := exponentField bits - 1

/-- Decimal places kept to the right of the point while a text is searched for. -/
def places : Nat := 54

/-- The numbers that round to the magnitude of a finite float, in units of `10 ^ -places`.  The gap
below a power of two is half the gap above it. -/
def interval (bits : UInt32) : RoundingInterval :=
  let m := significand bits
  let gap := if fraction bits = 0 ∧ 1 < exponentField bits then 1 else 2
  let factor := Nat.pow 2 (scale bits) * Nat.pow 10 places
  { low := (4 * m - gap) * factor
    value := 4 * m * factor
    high := (4 * m + 2) * factor
    unit := Nat.pow 2 151
    closed := m % 2 == 0 }

/-- The shortest decimal of the magnitude of a finite float other than zero. -/
def decimal (bits : UInt32) : Decimal :=
  let d := (interval bits).shortest
  ⟨d.digits, d.exponent - places⟩

/-! ## Text -/

/-- The magnitudes written without an exponent, from `1e-4` up to `1e16` as floats. -/
def isPositional (bits : UInt32) : Bool :=
  0x38d1b717 ≤ magnitude bits && magnitude bits < 0x5a0e1bca

/-- A row of zeros. -/
def zeros (n : Nat) : String := String.ofList (List.replicate n '0')

/-- Positional text of a decimal, with at least one digit on each side of the point. -/
def positional (d : Decimal) : String :=
  let digits := (Nat.toDigits 10 d.digits)
  let point := digits.length + d.exponent
  if point ≤ 0 then
    "0." ++ zeros (-point).toNat ++ String.ofList digits
  else if digits.length ≤ point then
    String.ofList digits ++ zeros d.exponent.toNat ++ ".0"
  else
    String.ofList (digits.take point.toNat) ++ "." ++ String.ofList (digits.drop point.toNat)

/-- Text of a decimal as one digit before the point and an exponent. -/
def scientific (d : Decimal) : String :=
  let digits := Nat.toDigits 10 d.digits
  let exponent := digits.length + d.exponent - 1
  let mantissa :=
    if digits.length = 1 then String.ofList digits
    else String.ofList (digits.take 1) ++ "." ++ String.ofList (digits.drop 1)
  mantissa ++ "e" ++ toString exponent

/-- Text of the magnitude of a finite float. -/
def magnitudeText (bits : UInt32) : String :=
  if magnitude bits = 0 then "0.0"
  else if isPositional bits then positional (decimal bits)
  else scientific (decimal bits)

/-- Text of a float.  A NaN is written without its sign and payload. -/
def text (bits : UInt32) : String :=
  if isNaN bits then "NaN"
  else
    let sign := if isNegative bits then "-" else ""
    if isFinite bits then sign ++ magnitudeText bits else sign ++ "inf"

end WgslKernel.Binary32
