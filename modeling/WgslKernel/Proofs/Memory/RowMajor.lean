import Mathlib.Algebra.BigOperators.Group.List.Lemmas
import Mathlib.Data.Int.ConditionallyCompleteOrder
import Mathlib.Data.List.Lex
import Mathlib.Order.CompletePartialOrder
import Mathlib.Order.ConditionallyCompleteLattice.Basic
import Mathlib.Order.Interval.Set.Disjoint
import Mathlib.Tactic.Choose
import WgslKernel.Proofs.Memory.Addressing

/-!
# The words of a field

The coordinates of a word are the digits of a number whose radices are the extents of the field, so
the words are numbered without a gap and without a repetition, in the order of the coordinates.  A
field without elements may have a size and no strides, as `0 × 65536 × 65536` does.
-/

namespace WgslKernel.Field

open List

variable {f : Field} {shape strides : List Nat} {components total : Nat}

/-! ## Strides are there when elements are -/

/-- There are strides if the words can be counted. -/
theorem exists_stridesFrom (hpos : ∀ d ∈ shape, 0 < d)
    (hfits : shape.prod * components < wordLimit) :
    ∃ strides, stridesFrom components shape = some (strides, shape.prod * components) := by
  induction shape with
  | nil => exact ⟨[], by simp [stridesFrom]⟩
  | cons d ds ih =>
    obtain ⟨hd, hds⟩ := forall_mem_cons.1 hpos
    have htotal : ds.prod * components * d = (d :: ds).prod * components := by
      rw [prod_cons]
      ring
    have hle : ds.prod * components ≤ ds.prod * components * d := Nat.le_mul_of_pos_right _ hd
    obtain ⟨ks, hks⟩ := ih hds (by omega)
    have hword : fitWord (ds.prod * components * d) = some ((d :: ds).prod * components) := by
      rw [htotal]
      exact if_pos hfits
    exact ⟨ds.prod * components :: ks,
      Option.bind_eq_some_iff.2 ⟨_, hks, Option.bind_eq_some_iff.2 ⟨_, hword, rfl⟩⟩⟩

theorem lt_of_sizeWords {n : Nat} (h : f.sizeWords = some n) : n < wordLimit := by
  obtain ⟨count, -, h⟩ := Option.bind_eq_some_iff.1 h
  unfold fitWord at h
  split at h
  · cases h
    assumption
  · cases h

/-- A field of known size has strides, unless one of its dimensions is empty. -/
theorem stridesFrom_of_sizeWords {n : Nat} (h : f.sizeWords = some n)
    (hpos : ∀ d ∈ f.shape, 0 < d) :
    ∃ strides, stridesFrom f.components f.shape = some (strides, n) := by
  have hfits := lt_of_sizeWords h
  rw [eq_of_sizeWords h] at hfits ⊢
  exact exists_stridesFrom hpos hfits

/-- A field that has words has no empty dimension. -/
theorem pos_of_sizeWords {n : Nat} (h : f.sizeWords = some n) (hn : 0 < n) :
    ∀ d ∈ f.shape, 0 < d := by
  intro d hd
  rw [eq_of_sizeWords h] at hn
  exact Nat.pos_of_dvd_of_pos (dvd_prod hd) (Nat.pos_of_mul_pos_right hn)

theorem Inside.pos {is : List Int} (hin : Inside is shape) : ∀ d ∈ shape, 0 < d := by
  induction hin with
  | nil => simp
  | cons hi _ ih => exact forall_mem_cons.2 ⟨by omega, ih⟩

/-- Of two places the one with the smaller coordinates has the smaller number. -/
theorem dot_lt_dot {is js : List Int} {c d : Nat} (his : Inside is shape) (hjs : Inside js shape)
    (hc : c < components) (h : stridesFrom components shape = some (strides, total))
    (hlt : is ++ [(c : Int)] < js ++ [(d : Int)]) :
    dot is strides + c < dot js strides + d := by
  induction his generalizing js strides total with
  | nil =>
    cases hjs
    cases h
    simpa [dot, cons_lt_cons_iff] using hlt
  | @cons i extent is ds hi his ih =>
    obtain _ | @⟨j, _, js, _, hj, hjs⟩ := hjs
    obtain ⟨⟨ks, size⟩, hks, h⟩ := Option.bind_eq_some_iff.1 h
    obtain ⟨n, hn, h⟩ := Option.bind_eq_some_iff.1 h
    cases h
    rw [cons_append, cons_append, cons_lt_cons_iff] at hlt
    simp only [dot]
    rcases hlt with hlt | ⟨rfl, hlt⟩
    · -- all that is under one index comes before the next one
      have hunder := (dot_bounds his hks).2
      have hfirst := (dot_bounds hjs hks).1
      have hstep : i * size + size ≤ j * size := by
        calc i * size + size = (i + 1) * size := by ring
          _ ≤ j * size := Int.mul_le_mul_of_nonneg_right hlt (by omega)
      omega
    · have := ih hjs hks hlt
      omega

/-- Every number below the total belongs to a place. -/
theorem exists_dot {w : Nat} (h : stridesFrom components shape = some (strides, total))
    (hw : w < total) :
    ∃ is c, Inside is shape ∧ c < components ∧ dot is strides + (c : Nat) = w := by
  induction shape generalizing strides total w with
  | nil =>
    cases h
    exact ⟨[], w, .nil, hw, by simp [dot]⟩
  | cons d ds ih =>
    obtain ⟨⟨ks, size⟩, hks, h⟩ := Option.bind_eq_some_iff.1 h
    obtain ⟨n, hn, h⟩ := Option.bind_eq_some_iff.1 h
    cases h
    rw [eq_of_fitWord hn] at hw
    have hsize : 0 < size := Nat.pos_of_mul_pos_right (Nat.zero_lt_of_lt hw)
    obtain ⟨is, c, hin, hc, hdot⟩ := ih hks (Nat.mod_lt w hsize)
    have hi : w / size < d := Nat.div_lt_of_lt_mul hw
    refine ⟨(w / size : Nat) :: is, c, .cons ⟨Int.natCast_nonneg _, Int.ofNat_lt.2 hi⟩ hin, hc, ?_⟩
    have hsplit : (size : Int) * (w / size : Nat) + (w % size : Nat) = w := by
      exact_mod_cast Nat.div_add_mod w size
    rw [dot, Int.add_assoc, hdot, Int.mul_comm, hsplit]

/-! ## Positions -/

/-- A place in a field: the indices of an element, and a component of it. -/
@[ext] structure Position (f : Field) where
  indices : List Int
  component : Nat
  inside : Inside indices f.shape
  component_lt : component < f.components

namespace Position

/-- The indices of a position and then its component. -/
def coordinates (p : f.Position) : List Int := p.indices ++ [(p.component : Int)]

/-- Positions differ in their coordinates. -/
theorem coordinates_injective : Function.Injective (coordinates (f := f)) := by
  intro p q h
  obtain ⟨hindices, hcomponent⟩ := append_inj' h rfl
  exact Position.ext hindices (by simpa using hcomponent)

end Position

theorem linearIndex_eq_some {is : List Int} {c : Nat} {w : Int} :
    f.linearIndex is c = some w ↔ ∃ strides total,
      stridesFrom f.components f.shape = some (strides, total) ∧
        w = f.offsetWords + dot is strides + c := by
  cases h : stridesFrom f.components f.shape with
  | none => simp [linearIndex, Field.strides, h]
  | some r => simp [linearIndex, Field.strides, h, Prod.ext_iff, eq_comm]

namespace Position

variable {n : Nat} {p q : f.Position} {v w : Int}

/-- Every position has a word. -/
theorem exists_linearIndex (hsize : f.sizeWords = some n) (p : f.Position) :
    ∃ w, f.linearIndex p.indices p.component = some w := by
  obtain ⟨strides, hstrides⟩ := stridesFrom_of_sizeWords hsize p.inside.pos
  exact ⟨_, linearIndex_eq_some.2 ⟨strides, n, hstrides, rfl⟩⟩

/-- The word is in the interval. -/
theorem linearIndex_mem (hsize : f.sizeWords = some n)
    (hw : f.linearIndex p.indices p.component = some w) :
    w ∈ Set.Ico (f.offsetWords : Int) (f.offsetWords + n) := by
  obtain ⟨strides, total, hstrides, rfl⟩ := linearIndex_eq_some.1 hw
  have htotal : total = n := (eq_of_stridesFrom hstrides).trans (eq_of_sizeWords hsize).symm
  obtain ⟨hlow, hhigh⟩ := dot_bounds p.inside hstrides
  have hcomponent := p.component_lt
  exact ⟨by omega, by omega⟩

/-- Words are in the order of positions. -/
theorem linearIndex_lt (hv : f.linearIndex p.indices p.component = some v)
    (hw : f.linearIndex q.indices q.component = some w) (hlt : p.coordinates < q.coordinates) :
    v < w := by
  obtain ⟨strides, total, hstrides, rfl⟩ := linearIndex_eq_some.1 hv
  obtain ⟨strides', total', hstrides', rfl⟩ := linearIndex_eq_some.1 hw
  cases hstrides.symm.trans hstrides'
  have := dot_lt_dot p.inside q.inside p.component_lt hstrides hlt
  omega

/-- Every word of the interval has a position. -/
theorem exists_of_mem (hsize : f.sizeWords = some n)
    (hw : w ∈ Set.Ico (f.offsetWords : Int) (f.offsetWords + n)) :
    ∃ p : f.Position, f.linearIndex p.indices p.component = some w := by
  obtain ⟨hlow, hhigh⟩ := hw
  obtain ⟨k, hk⟩ := Int.eq_ofNat_of_zero_le (Int.sub_nonneg_of_le hlow)
  have hlt : k < n := by omega
  obtain ⟨strides, hstrides⟩ :=
    stridesFrom_of_sizeWords hsize (pos_of_sizeWords hsize (Nat.zero_lt_of_lt hlt))
  obtain ⟨is, c, hin, hc, hdot⟩ := exists_dot hstrides hlt
  refine ⟨⟨is, c, hin, hc⟩, linearIndex_eq_some.2 ⟨strides, n, hstrides, ?_⟩⟩
  show w = f.offsetWords + dot is strides + c
  omega

end Position

/-- **Row-major addressing numbers the words of a field.**  If the size of a field is known:

* every position has a word index;
* different positions have different ones;
* the word indices are those of the interval that begins at the offset of the field and has its
  size;
* they grow with the coordinates in lexicographic order;
* another field whose interval is disjoint shares no word with this one. -/
theorem linearIndex_rowMajor {n : Nat} (hsize : f.sizeWords = some n) :
    ∃ address : f.Position → Int,
      (∀ p, f.linearIndex p.indices p.component = some (address p)) ∧
      Function.Injective address ∧
      Set.range address = Set.Ico (f.offsetWords : Int) (f.offsetWords + n) ∧
      (∀ p q : f.Position, p.coordinates < q.coordinates → address p < address q) ∧
      ∀ (g : Field) (k : Nat), g.sizeWords = some k →
        Disjoint (Set.Ico (f.offsetWords : Int) (f.offsetWords + n))
          (Set.Ico (g.offsetWords : Int) (g.offsetWords + k)) →
        ∀ (p : f.Position) (q : g.Position),
          f.linearIndex p.indices p.component ≠ g.linearIndex q.indices q.component := by
  choose address haddress using Position.exists_linearIndex hsize
  have hmono (p q : f.Position) (hlt : p.coordinates < q.coordinates) : address p < address q :=
    Position.linearIndex_lt (haddress p) (haddress q) hlt
  refine ⟨address, haddress, fun p q heq => ?_, Set.ext fun w => ⟨?_, fun hw => ?_⟩, hmono, ?_⟩
  · rcases lt_trichotomy p.coordinates q.coordinates with hlt | hcoordinates | hlt
    · exact absurd heq (hmono p q hlt).ne
    · exact Position.coordinates_injective hcoordinates
    · exact absurd heq (hmono q p hlt).ne'
  · rintro ⟨p, rfl⟩
    exact Position.linearIndex_mem hsize (haddress p)
  · obtain ⟨p, hp⟩ := Position.exists_of_mem hsize hw
    exact ⟨p, Option.some.inj ((haddress p).symm.trans hp)⟩
  · intro g k hsize' hdisjoint p q heq
    have hq := Position.linearIndex_mem hsize' (heq.symm.trans (haddress p))
    exact Set.disjoint_left.1 hdisjoint (Position.linearIndex_mem hsize (haddress p)) hq

/-- Pairs of words in two rows of three, behind five words of other fields. -/
def pairs : Field := { id := 0, shape := [2, 3], dtype := .i32, components := 2, offsetWords := 5 }

/-- The last word of `pairs` has the last index, and a field behind it has other words. -/
theorem linearIndex_rowMajor_pairs : pairs.sizeWords = some 12 ∧
    pairs.linearIndex [1, 2] 1 = some 16 ∧
    (∃ address : pairs.Position → Int, Function.Injective address ∧
      Set.range address = Set.Ico (5 : Int) 17) ∧
    ∀ p q : pairs.Position, pairs.linearIndex p.indices p.component ≠
      linearIndex { pairs with offsetWords := 17 } q.indices q.component := by
  have hsize : pairs.sizeWords = some 12 := rfl
  obtain ⟨address, -, hinjective, hrange, -, hdisjoint⟩ := linearIndex_rowMajor hsize
  refine ⟨hsize, rfl, ⟨address, hinjective, hrange⟩, fun p q => ?_⟩
  refine hdisjoint { pairs with offsetWords := 17 } 12 rfl ?_ p ⟨q.indices, q.component, q.inside,
    q.component_lt⟩
  exact Set.disjoint_left.2 fun w hw hw' => absurd hw.2 (not_lt.2 hw'.1)

-- without elements there need not be strides
example : Field.sizeWords { id := 0, shape := [0, 65536, 65536], dtype := .i32 } = some 0 ∧
    Field.strides { id := 0, shape := [0, 65536, 65536], dtype := .i32 } = none := ⟨rfl, rfl⟩

end WgslKernel.Field
