import WgslKernel.Primitive

/-!
# Fields

A field is a dense array of any rank inside a root buffer of 32-bit words.  Its sizes and
strides are computed in 32-bit arithmetic that refuses to overflow (`fitWord`), and a field is
only usable by a shader when every word of it has an index below `2 ^ 31` (`Field.isAddressable`).
-/

namespace WgslKernel

/-- One more than the largest unsigned 32-bit word. -/
def wordLimit : Nat := 0x100000000

/-- One more than the largest signed 32-bit index. -/
def indexLimit : Nat := 0x80000000

/-- A number that fits an unsigned 32-bit word. -/
def fitWord (n : Nat) : Option Nat := if n < wordLimit then some n else none

/-- A number that fits a non-negative signed 32-bit index. -/
def fitIndex (n : Nat) : Option Nat := if n < indexLimit then some n else none

/-- A dense array living inside a root buffer. -/
structure Field where
  id : Nat
  /-- Dimension extents, outermost first. -/
  shape : List Nat
  dtype : Prim
  /-- Words per element: one for scalars, `n` for vectors. -/
  components : Nat := 1
  /-- Root buffer holding the field. -/
  buffer : Nat := id
  /-- Word offset of the first element inside the root buffer. -/
  offsetWords : Nat := 0
  writable : Bool := true
  deriving DecidableEq, Repr

namespace Field

/-- Number of elements, if every partial product from the left fits a word. -/
def elementCount (f : Field) : Option Nat :=
  f.shape.foldlM (fun acc d => fitWord (acc * d)) 1

/-- Words occupied inside the root buffer. -/
def sizeWords (f : Field) : Option Nat := do
  let n ← f.elementCount
  fitWord (n * f.components)

/-- The strides of the dimensions `shape`, and the number of words under all of them. -/
def stridesFrom (components : Nat) : List Nat → Option (List Nat × Nat)
  | [] => some ([], components)
  | d :: ds => do
    let (strides, size) ← stridesFrom components ds
    let total ← fitWord (size * d)
    some (size :: strides, total)

/-- Row-major word strides, one per dimension. -/
def strides (f : Field) : Option (List Nat) :=
  (stridesFrom f.components f.shape).map Prod.fst

/-- Whether every word of the field can be indexed with a signed 32-bit integer. -/
def isAddressable (f : Field) : Bool :=
  match f.sizeWords with
  | some n => (fitIndex (n + f.offsetWords)).isSome
  | none => false

/-- Sum of the products of two lists, as far as both reach. -/
def dot : List Int → List Nat → Int
  | i :: is, s :: ss => i * s + dot is ss
  | _, _ => 0

/-- Word index inside the root buffer of the element at `indices`, plus a component offset. -/
def linearIndex (f : Field) (indices : List Int) (elementOffset : Nat) : Option Int := do
  let strides ← f.strides
  some (f.offsetWords + dot indices strides + elementOffset)

end Field

end WgslKernel
