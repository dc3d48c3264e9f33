import WgslKernel.Field

/-!
# Numerals

Reading numbers in decimal: an optional sign and at least one ASCII digit.  A word is a number
without a minus sign and below `2 ^ 32`.
-/

namespace WgslKernel.Text

/-- The value of a digit. -/
def digit? (c : Char) : Option Nat :=
  if '0' ≤ c ∧ c ≤ '9' then some (c.toNat - '0'.toNat) else none

/-- The number written by the digits, continuing the number `acc`. -/
def digits? (acc : Nat) : List Char → Option Nat
  | [] => some acc
  | c :: cs => do
    let d ← digit? c
    digits? (10 * acc + d) cs

/-- The number written by at least one digit. -/
def natural? : List Char → Option Nat
  | [] => none
  | cs => digits? 0 cs

/-- A number that may have a plus sign. -/
def unsigned? : List Char → Option Nat
  | '+' :: cs => natural? cs
  | cs => natural? cs

/-- A number that may have a plus or a minus sign. -/
def signed? : List Char → Option Int
  | '-' :: cs => (natural? cs).map fun n => -(n : Int)
  | cs => (unsigned? cs).map fun n => (n : Int)

/-- A word in decimal. -/
def word? (cs : List Char) : Option Nat := do
  let n ← unsigned? cs
  fitWord n

end WgslKernel.Text
