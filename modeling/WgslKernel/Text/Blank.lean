/-!
# White space

The characters with the Unicode property `White_Space`, and removing them from both ends of a
text.
-/

namespace WgslKernel.Text

/-- The code points with the property `White_Space`, as inclusive ranges in ascending order. -/
def blankRanges : List (Nat × Nat) :=
  [(0x09, 0x0D), (0x20, 0x20), (0x85, 0x85), (0xA0, 0xA0), (0x1680, 0x1680), (0x2000, 0x200A),
    (0x2028, 0x2029), (0x202F, 0x202F), (0x205F, 0x205F), (0x3000, 0x3000)]

/-- The character is white space. -/
def isBlank (c : Char) : Bool :=
  blankRanges.any fun r => r.1 ≤ c.toNat && c.toNat ≤ r.2

/-- Without white space in front. -/
def trimLeft (cs : List Char) : List Char := cs.dropWhile isBlank

/-- Without white space behind. -/
def trimRight (cs : List Char) : List Char := (cs.reverse.dropWhile isBlank).reverse

/-- The text without white space at its ends. -/
def trim (cs : List Char) : List Char := trimRight (trimLeft cs)

end WgslKernel.Text
