import Mathlib.Algebra.Order.BigOperators.Group.List
import Mathlib.Tactic.Ring
import WgslKernel.Proofs.Simulation.Places

/-!
# Addresses of field elements

A pointer into a field is lowered to index arithmetic in signed 32-bit words.  A field is refused
unless its last word has such an index, and the one check is enough: for indices inside of the shape
no product and no sum on the way leaves the range of a word (`exact_lowerGlobalPtr`).
-/

namespace WgslKernel

open List

/-! ## Index arithmetic without overflow -/

/-- An integer that is a signed 32-bit word. -/
def fitSigned (i : Int) : Option Int := if -2 ^ 31 ≤ i ∧ i < 2 ^ 31 then some i else none

theorem fitSigned_of_nonneg {i : Int} (h₀ : 0 ≤ i) (h₁ : i < indexLimit) : fitSigned i = some i :=
  if_pos ⟨by omega, by unfold indexLimit at h₁; omega⟩

theorem eq_of_fitSigned {i j : Int} (h : fitSigned i = some j) :
    i = j ∧ -2 ^ 31 ≤ i ∧ i < 2 ^ 31 := by
  unfold fitSigned at h
  split at h
  · rename_i hrange
    exact ⟨Option.some.inj h, hrange⟩
  · cases h

/-- An integer that is a word is not changed by wrapping around. -/
theorem bmod_of_fitSigned {i j : Int} (h : fitSigned i = some j) : i.bmod (2 ^ 32) = j := by
  obtain ⟨rfl, hlow, hhigh⟩ := eq_of_fitSigned h
  exact Int.bmod_eq_of_le (by omega) (by omega)

namespace Expr

variable {inv : Invocation} {st : Store}

/-- The integer that an operand of index arithmetic stands for. -/
def exactOperand (inv : Invocation) (st : Store) (e : Expr) : Option Int :=
  match e.eval inv st with
  | .done (.int w) => some w.toInt
  | .done (.abstract v) => fitSigned v
  | _ => none

/-- The integer that products and sums stand for, if each of them is a signed 32-bit word. -/
def exact (inv : Invocation) (st : Store) : Expr → Option Int
  | binary .add a b => do
    let i ← exact inv st a
    let j ← exact inv st b
    fitSigned (i + j)
  | binary .mul a b => do
    let i ← exact inv st a
    let j ← exact inv st b
    fitSigned (i * j)
  | e => e.exactOperand inv st

/-- The integer that a datum is, with a type that may still be open. -/
def integer? : Datum → Option Int
  | .int w => some w.toInt
  | .abstract v => some v
  | _ => none

/-- An operator is the function on integers, but for words, which wrap around. -/
structure Wraps (op : Operator) (f : Int → Int → Int) : Prop where
  words : ∀ {a b x}, op.onInts a b = .done x →
    ∃ w, x = .int w ∧ w.toInt = (f a.toInt b.toInt).bmod (2 ^ 32)
  integers : ∀ {v w}, op.onOpen v w = Datum.ofOpen (f v w)
  shortcut : ∀ {c}, op.shortcut c = none

/-- Sums of words wrap around. -/
theorem wraps_add : Wraps .add (· + ·) where
  words h := by
    cases h
    exact ⟨_, rfl, Int32.toInt_add _ _⟩
  integers := rfl
  shortcut := rfl

/-- Products of words wrap around. -/
theorem wraps_mul : Wraps .mul (· * ·) where
  words h := by
    cases h
    exact ⟨_, rfl, Int32.toInt_mul _ _⟩
  integers := rfl
  shortcut := rfl

theorem int_of_ofAbstract {v : Int} {d : Datum} (h : Datum.ofAbstract v = .done d) :
    ∃ a, d = .int a ∧ a.toInt = v := by
  unfold Datum.ofAbstract at h
  split at h
  · rename_i hrange
    cases h
    exact ⟨_, rfl, Int32.toInt_ofInt_of_le hrange.1 hrange.2⟩
  · cases h

/-- A result that is a signed word is what the shader computes. -/
theorem Wraps.integer {op : Operator} {f : Int → Int → Int} {c d x : Datum} {i j k : Int}
    (hop : Wraps op f) (hc : integer? c = some j) (hd : integer? d = some k)
    (hfit : fitSigned (f j k) = some i) (h : op.apply c d = .done x) : integer? x = some i := by
  have hwords {a b : Int32} (ha : a.toInt = j) (hb : b.toInt = k)
      (hab : op.onInts a b = .done x) : integer? x = some i := by
    obtain ⟨w, rfl, hw⟩ := hop.words hab
    rw [integer?, hw, ha, hb, bmod_of_fitSigned hfit]
  obtain ⟨⟨c', d'⟩, hunify, h⟩ := Run.bind_eq_done.1 h
  cases c <;> cases hc <;> cases d <;> cases hd
  case int.refl.int.refl =>
    cases hunify
    exact hwords rfl rfl h
  case int.refl.abstract.refl =>
    obtain ⟨y, hy, heq⟩ := Run.bind_eq_done.1 hunify
    cases heq
    obtain ⟨b, rfl, hb⟩ := int_of_ofAbstract hy
    exact hwords rfl hb h
  case abstract.refl.int.refl =>
    obtain ⟨y, hy, heq⟩ := Run.bind_eq_done.1 hunify
    cases heq
    obtain ⟨a, rfl, ha⟩ := int_of_ofAbstract hy
    exact hwords ha rfl h
  case abstract.refl.abstract.refl =>
    cases hunify
    have hopen : Datum.ofOpen (f j k) = .done x := hop.integers.symm.trans h
    unfold Datum.ofOpen at hopen
    split at hopen
    · cases hopen
      rw [integer?, (eq_of_fitSigned hfit).1]
    · cases hopen

/-- The step of `integer_of_exact`. -/
theorem Wraps.exact {op : Operator} {f : Int → Int → Int} {e₁ e₂ : Expr} (hop : Wraps op f)
    (h₁ : ∀ {i d}, e₁.exact inv st = some i → e₁.eval inv st = .done d → integer? d = some i)
    (h₂ : ∀ {i d}, e₂.exact inv st = some i → e₂.eval inv st = .done d → integer? d = some i)
    {i : Int} {d : Datum}
    (h : (do fitSigned (f (← e₁.exact inv st) (← e₂.exact inv st))) = some i)
    (hd : (binary op e₁ e₂).eval inv st = .done d) : integer? d = some i := by
  obtain ⟨j, hj, h⟩ := Option.bind_eq_some_iff.1 h
  obtain ⟨k, hk, h⟩ := Option.bind_eq_some_iff.1 h
  rw [eval] at hd
  obtain ⟨c₁, hc₁, hd⟩ := Run.bind_eq_done.1 hd
  rw [hop.shortcut] at hd
  obtain ⟨c₂, hc₂, hd⟩ := Run.bind_eq_done.1 hd
  exact hop.integer (h₁ hj hc₁) (h₂ hk hc₂) h hd

/-- The words that a shader computes wrap around, and those of an exact expression do not. -/
theorem integer_of_exact {e : Expr} {i : Int} {d : Datum} (h : e.exact inv st = some i)
    (hd : e.eval inv st = .done d) : integer? d = some i := by
  fun_induction exact inv st e generalizing i d with
  | case1 e₁ e₂ ih₁ ih₂ => exact wraps_add.exact ih₁ ih₂ h hd
  | case2 e₁ e₂ ih₁ ih₂ => exact wraps_mul.exact ih₁ ih₂ h hd
  | case3 e =>
    unfold exactOperand at h
    rw [hd] at h
    cases d with
    | int w => exact h
    | abstract v => exact congrArg some (eq_of_fitSigned h).1
    | _ => cases h

end Expr

namespace Field

variable {f : Field} {shape strides : List Nat} {components total : Nat}

/-! ## Sizes and strides -/

theorem eq_of_fitWord {n k : Nat} (h : fitWord n = some k) : k = n := by
  unfold fitWord at h
  split at h
  · exact (Option.some.inj h).symm
  · cases h

/-- A product that fits is exact. -/
theorem eq_of_foldlM_fitWord {acc n : Nat}
    (h : shape.foldlM (fun acc d => fitWord (acc * d)) acc = some n) : n = acc * shape.prod := by
  induction shape generalizing acc with
  | nil =>
    cases h
    simp
  | cons d ds ih =>
    rw [foldlM_cons] at h
    obtain ⟨k, hk, h⟩ := Option.bind_eq_some_iff.1 h
    rw [ih h, eq_of_fitWord hk, prod_cons, Nat.mul_assoc]

theorem eq_of_sizeWords {n : Nat} (h : f.sizeWords = some n) : n = f.shape.prod * f.components := by
  obtain ⟨count, hcount, h⟩ := Option.bind_eq_some_iff.1 h
  rw [eq_of_fitWord h, eq_of_foldlM_fitWord hcount, Nat.one_mul]

/-- The number of words under all dimensions, counted from the innermost one. -/
theorem eq_of_stridesFrom (h : stridesFrom components shape = some (strides, total)) :
    total = shape.prod * components := by
  induction shape generalizing strides total with
  | nil =>
    cases h
    simp
  | cons d ds ih =>
    obtain ⟨⟨ks, size⟩, hks, h⟩ := Option.bind_eq_some_iff.1 h
    obtain ⟨n, hn, h⟩ := Option.bind_eq_some_iff.1 h
    cases h
    rw [eq_of_fitWord hn, ih hks, prod_cons]
    ring

/-- Indices inside of the extents of a shape. -/
def Inside (is : List Int) (shape : List Nat) : Prop :=
  List.Forall₂ (fun (i : Int) (d : Nat) => 0 ≤ i ∧ i < d) is shape

/-- What the indices contribute stays one element below the words under all dimensions. -/
theorem dot_bounds {is : List Int} (hin : Inside is shape)
    (h : stridesFrom components shape = some (strides, total)) :
    0 ≤ dot is strides ∧ dot is strides + components ≤ total := by
  induction hin generalizing strides total with
  | nil =>
    cases h
    simp [dot]
  | @cons i d is ds hi _ ih =>
    obtain ⟨⟨ks, size⟩, hks, h⟩ := Option.bind_eq_some_iff.1 h
    obtain ⟨n, hn, h⟩ := Option.bind_eq_some_iff.1 h
    cases h
    obtain ⟨hlow, hhigh⟩ := ih hks
    have hterm : 0 ≤ i * size := Int.mul_nonneg hi.1 (by omega)
    -- the last step of this dimension leaves room for all that is inside of it
    have hroom : i * size + size ≤ size * d := by
      calc i * size + size = (i + 1) * size := by ring
        _ ≤ d * size := Int.mul_le_mul_of_nonneg_right (by omega) (by omega)
        _ = size * d := by ring
    rw [eq_of_fitWord hn]
    push_cast
    exact ⟨by rw [dot]; omega, by rw [dot]; omega⟩

/-- Each index contributes at least nothing. -/
theorem zipWith_nonneg {is : List Int} (hin : Inside is shape) (ks : List Nat) :
    ∀ t ∈ List.zipWith (fun (i : Int) (k : Nat) => i * k) is ks, 0 ≤ t := by
  induction hin generalizing ks with
  | nil => simp
  | cons hi _ ih =>
    cases ks with
    | nil => simp
    | cons k ks =>
      rw [zipWith_cons_cons]
      exact forall_mem_cons.2 ⟨Int.mul_nonneg hi.1 (by omega), ih ks⟩

/-- A word inside of an element inside of the shape is among the words of the field. -/
theorem dot_lt_sizeWords {is : List Int} {size elementOffset : Nat} (hin : Inside is f.shape)
    (hstrides : f.strides = some strides) (hsize : f.sizeWords = some size)
    (hoffset : elementOffset < f.components) :
    0 ≤ dot is strides ∧ dot is strides + elementOffset < size := by
  obtain ⟨⟨ks, total⟩, hks, rfl⟩ := Option.map_eq_some_iff.1 hstrides
  have htotal : total = size := (eq_of_stridesFrom hks).trans (eq_of_sizeWords hsize).symm
  obtain ⟨hlow, hhigh⟩ := dot_bounds hin hks
  refine ⟨hlow, ?_⟩
  show dot is ks + elementOffset < size
  omega

/-- A field is addressable if its last word has an index. -/
theorem isAddressable_iff :
    f.isAddressable = true ↔ ∃ n, f.sizeWords = some n ∧ n + f.offsetWords < indexLimit := by
  unfold isAddressable
  cases f.sizeWords with
  | none => simp
  | some n => simp [fitIndex]

end Field

namespace Codegen

variable {ctx : Context} {values : Values} {id : StmtId} {f : Field} {indices : List StmtId}
  {elementOffset : Nat} {l : Lowering} {inv : Invocation} {store : Store}

/-! ## Terms and their sum -/

theorem exact_int {n : Nat} (h : n < indexLimit) :
    (Expr.int n).exact inv store = some (n : Int) := by
  show (Expr.int n).exactOperand inv store = _
  rw [Expr.exactOperand, eval_index h]
  show some (Int32.ofInt n).toInt = _
  rw [Int32.toInt_ofInt_of_le (by omega) (by unfold indexLimit at h; omega)]

/-- A sum of operands that are not negative is exact if the total is a word. -/
theorem exact_add {e₁ e₂ : Expr} {i j : Int} (h₁ : e₁.exact inv store = some i)
    (h₂ : e₂.exact inv store = some j) (h₀ : 0 ≤ i + j) (hlt : i + j < indexLimit) :
    (Expr.binary .add e₁ e₂).exact inv store = some (i + j) := by
  rw [Expr.exact, h₁, h₂]
  exact fitSigned_of_nonneg h₀ hlt

theorem exact_strideTerm {e : Expr} {i : Int} {k : Nat} (h : e.exact inv store = some i)
    (hk : k < indexLimit) (h₀ : 0 ≤ i * k) (hlt : i * k < indexLimit) :
    (strideTerm e k).exact inv store = some (i * k) := by
  unfold strideTerm
  split
  · rename_i hone
    rw [h, hone, Int.natCast_one, Int.mul_one]
  · rw [Expr.exact, h, exact_int hk]
    exact fitSigned_of_nonneg h₀ hlt

/-- Sums of terms are exact. -/
theorem exact_foldl {es : List Expr} {is : List Int}
    (h : List.Forall₂ (fun e i => e.exact inv store = some i) es is) (hpos : ∀ i ∈ is, 0 ≤ i)
    {e : Expr} {i : Int} (he : e.exact inv store = some i) (h₀ : 0 ≤ i)
    (hlt : i + is.sum < indexLimit) :
    (es.foldl (.binary .add) e).exact inv store = some (i + is.sum) := by
  induction h generalizing e i with
  | nil => simpa using he
  | @cons e' j es is hhead _ ih =>
    rw [sum_cons] at hlt
    rw [foldl_cons, sum_cons, ← Int.add_assoc]
    have hj : 0 ≤ j := hpos j mem_cons_self
    have hrest : ∀ i ∈ is, 0 ≤ i := fun i hi => hpos i (mem_cons_of_mem _ hi)
    have hsum : 0 ≤ is.sum := sum_nonneg hrest
    exact ih hrest (exact_add he hhead (by omega) (by omega)) (by omega) (by omega)

/-- The whole sum is exact if it is a word, because it grows from term to term. -/
theorem exact_sumTerms {es : List Expr} {is : List Int}
    (h : List.Forall₂ (fun e i => e.exact inv store = some i) es is) (hpos : ∀ i ∈ is, 0 ≤ i)
    {base : Nat} (hlt : is.sum + base < indexLimit) :
    (sumTerms es base).exact inv store = some (is.sum + base) := by
  have hsum : 0 ≤ is.sum := sum_nonneg hpos
  have hbase : base < indexLimit := by omega
  cases h with
  | nil =>
    rw [sum_nil, Int.zero_add]
    exact exact_int hbase
  | @cons e i es is hhead htail =>
    have hfold := exact_foldl htail (fun j hj => hpos j (mem_cons_of_mem _ hj)) hhead
      (hpos i mem_cons_self) (by rw [← sum_cons]; omega)
    rw [← sum_cons] at hfold
    unfold sumTerms
    dsimp only
    split
    · rename_i hzero
      rw [hfold, hzero, Int.natCast_zero, Int.add_zero]
    · exact exact_add hfold (exact_int hbase) (by omega) hlt

/-! ## Pointers -/

/-- What the request for a pointer is checked for. -/
theorem rank_of_create {b b' : Builder}
    (h : b.create (.globalPtr f indices elementOffset) = .ok (b', id)) :
    indices.length = f.shape.length ∧ elementOffset < f.components := by
  rw [Builder.create] at h
  split at h
  · cases h
  · rename_i hrank
    split at h
    · rename_i hoffset
      exact ⟨not_not.1 hrank, hoffset⟩
    · cases h

theorem isAddressable_of_fieldStrides {strides : List Nat} (h : fieldStrides id f = .ok strides) :
    f.isAddressable = true := by
  unfold fieldStrides at h
  split at h
  · assumption
  · simp at h

/-- A pointer is lowered to the sum of its terms and of its base. -/
theorem lowerGlobalPtr_eq_ok (h : lowerGlobalPtr ctx values id f indices elementOffset = .ok l) :
    ∃ strides terms, fieldStrides id f = .ok strides ∧
      indexTerms ctx values id indices strides = .ok terms ∧
      l.code = .line (.letBind (.temp id) (some ⟨.i32, 1⟩)
        (sumTerms terms (f.offsetWords + elementOffset))) .done := by
  obtain ⟨⟨⟩, -, h⟩ := bind_eq_ok.1 h
  obtain ⟨strides, hstrides, h⟩ := bind_eq_ok.1 h
  obtain ⟨terms, hterms, h⟩ := bind_eq_ok.1 h
  refine ⟨strides, terms, hstrides, hterms, ?_⟩
  split at h
  · rename_i base hbase
    obtain ⟨rfl, -⟩ := lt_of_fitIndex hbase
    obtain ⟨type, htype, rfl⟩ := define_eq_ok.1 h
    rw [← shaderType_i32 htype]
    rfl
  · simp at h

/-- The terms of a pointer are those of the values that its indices have. -/
theorem indexTerms_eq_ok {strides : List Nat} {terms : List Expr}
    (hlen : indices.length = strides.length)
    (h : indexTerms ctx values id indices strides = .ok terms) :
    ∃ vs, List.Forall₂ (fun x v => ctx.value values id x = .ok v) indices vs ∧
      terms = List.zipWith (fun v k => strideTerm v.expr k) vs strides := by
  induction indices generalizing strides terms with
  | nil =>
    cases h
    exact ⟨[], .nil, by simp⟩
  | cons x indices ih =>
    cases strides with
    | nil => cases hlen
    | cons k ks =>
      obtain ⟨v, hv, h⟩ := bind_eq_ok.1 h
      split at h
      · obtain ⟨terms, hterms, h⟩ := bind_eq_ok.1 h
        cases h
        obtain ⟨vs, hvs, rfl⟩ := ih (Nat.succ.inj hlen) hterms
        exact ⟨v :: vs, .cons hv hvs, by simp⟩
      · simp at h

/-- The integers that the indices of a pointer stand for. -/
def IndexValues (ctx : Context) (values : Values) (id : StmtId) (inv : Invocation) (store : Store)
    (indices : List StmtId) (is : List Int) : Prop :=
  List.Forall₂
    (fun x i => ∃ v, ctx.value values id x = .ok v ∧ v.expr.exact inv store = some i) indices is

/-- The indices of a pointer are all words of the machine, not integers of open type. -/
def IndexWords (ctx : Context) (values : Values) (id : StmtId) (inv : Invocation) (store : Store)
    (indices : List StmtId) : Prop :=
  ∀ x ∈ indices, ∃ v w, ctx.value values id x = .ok v ∧ v.expr.eval inv store = .done (.int w)

/-- What holds of each index and its stride holds of each term. -/
theorem forall₂_terms {P : Value → Int → Prop} {Q : Expr → Int → Prop} {vs : List Value}
    {is : List Int} {strides : List Nat} (h : List.Forall₂ P vs is)
    (hterm : ∀ v i, ∀ k ∈ strides,
      i * (k : Int) ∈ List.zipWith (fun (i : Int) (k : Nat) => i * k) is strides →
      P v i → Q (strideTerm v.expr k) (i * k)) :
    List.Forall₂ Q (List.zipWith (fun v k => strideTerm v.expr k) vs strides)
      (List.zipWith (fun (i : Int) (k : Nat) => i * k) is strides) := by
  induction h generalizing strides with
  | nil => simp
  | @cons v i vs is hi _ ih =>
    cases strides with
    | nil => simp
    | cons k ks =>
      rw [zipWith_cons_cons] at hterm ⊢
      refine .cons (hterm v i k mem_cons_self mem_cons_self hi)
        (ih fun v i k hk hmem => ?_)
      exact hterm v i k (mem_cons_of_mem _ hk) (mem_cons_of_mem _ hmem)

/-- The values that the indices have, with the integers they stand for. -/
theorem IndexValues.of_values {is : List Int} {vs : List Value}
    (h : IndexValues ctx values id inv store indices is)
    (hvs : List.Forall₂ (fun x v => ctx.value values id x = .ok v) indices vs) :
    List.Forall₂ (fun v i => v.expr.exact inv store = some i) vs is := by
  induction hvs generalizing is with
  | nil =>
    cases h
    exact .nil
  | cons hv _ ih =>
    cases h with
    | cons hi his =>
      obtain ⟨v, hv', hexact⟩ := hi
      cases hv.symm.trans hv'
      exact .cons hexact (ih his)

/-- Where the indices are words, the shader finds the integers they stand for. -/
theorem IndexWords.addresses {is : List Int} {vs : List Value}
    (h : IndexWords ctx values id inv store indices)
    (hvs : List.Forall₂ (fun x v => ctx.value values id x = .ok v) indices vs)
    (his : List.Forall₂ (fun v i => v.expr.exact inv store = some i) vs is) :
    List.Forall₂ (fun v i => Addresses inv store v.expr i) vs is := by
  induction hvs generalizing is with
  | nil =>
    cases his
    exact .nil
  | cons hv _ ih =>
    cases his with
    | cons hi his =>
      obtain ⟨⟨v, w, hv', hw⟩, h⟩ := forall_mem_cons.1 h
      cases hv.symm.trans hv'
      refine .cons ?_ (ih h his)
      cases Expr.integer_of_exact hi hw
      rw [Addresses, hw, Int32.ofInt_toInt]

/-- **Addresses are exact.**  A pointer that was created and lowered is one line, which binds an
expression of index arithmetic.  For indices inside of the shape no product and no sum of it
overflows, it stands for the linear index of the element, and that is one of the words of the
field.  Where the indices are words, so is what the shader computes. -/
theorem exact_lowerGlobalPtr {b b' : Builder} {is : List Int}
    (hcreate : b.create (.globalPtr f indices elementOffset) = .ok (b', id))
    (hlower : lowerGlobalPtr ctx values id f indices elementOffset = .ok l)
    (hvalues : IndexValues ctx values id inv store indices is)
    (hinside : Field.Inside is f.shape) :
    ∃ e i size, l.code = .line (.letBind (.temp id) (some ⟨.i32, 1⟩) e) .done ∧
      e.exact inv store = some i ∧ f.linearIndex is elementOffset = some i ∧
      f.sizeWords = some size ∧ f.offsetWords ≤ i ∧ i < f.offsetWords + size ∧
      f.offsetWords + size < 2 ^ 31 ∧
      (IndexWords ctx values id inv store indices →
        e.eval inv store = .done (.int (Int32.ofInt i))) := by
  obtain ⟨hrank, hoffset⟩ := rank_of_create hcreate
  obtain ⟨strides, terms, hstrides, hterms, hcode⟩ := lowerGlobalPtr_eq_ok hlower
  obtain ⟨size, hsize, hend⟩ := Field.isAddressable_iff.1 (isAddressable_of_fieldStrides hstrides)
  obtain ⟨hfield, hlt⟩ := fieldStrides_eq_ok hstrides
  obtain ⟨vs, hvs, rfl⟩ := indexTerms_eq_ok (hrank.trans (length_strides hfield).symm) hterms
  obtain ⟨hlow, hhigh⟩ := Field.dot_lt_sizeWords hinside hfield hsize hoffset
  rw [dot_eq] at hlow hhigh
  have hexact := hvalues.of_values hvs
  have hpos := Field.zipWith_nonneg hinside strides
  -- no term exceeds the sum, and the sum with its base is a word of the field
  have hterm : ∀ t ∈ List.zipWith (fun (i : Int) (k : Nat) => i * k) is strides,
      t < indexLimit := fun t ht => by
    have hle := single_le_sum hpos t ht
    omega
  refine ⟨_, (List.zipWith (fun (i : Int) (k : Nat) => i * k) is strides).sum +
    (f.offsetWords + elementOffset : Nat), size, hcode, ?_, ?_, hsize, ?_, ?_, ?_, ?_⟩
  · refine exact_sumTerms (forall₂_terms hexact fun v i k hk hmem hi => ?_) hpos (by omega)
    exact exact_strideTerm hi (hlt k hk) (hpos _ hmem) (hterm _ hmem)
  · rw [Field.linearIndex, hfield, Option.bind_eq_bind, Option.bind_some, dot_eq]
    congr 1
    omega
  · omega
  · omega
  · unfold indexLimit at hend
    omega
  · intro hwords
    refine Addresses.sumTerms (forall₂_terms (hwords.addresses hvs hexact) fun v i k hk _ hi => ?_)
      (by omega)
    exact hi.strideTerm (hlt k hk)

/-- Pairs of floats in three rows of three, a hundred words into their buffer. -/
def pairs : Field :=
  { id := 7, shape := [3, 3], dtype := .f32, components := 2, buffer := 1, offsetWords := 100 }

/-- An argument that is two, and the constant one. -/
def pairsModule : Module :=
  (({} : Module).append rootBlock (.argLoad .i32 0)).append rootBlock (.const (.i32 1))

/-- An element of a field of pairs. -/
theorem exact_lowerGlobalPtr_pairs :
    let ctx : Context := { module := pairsModule, config := {}, signature := {}, stage := .compute }
    let values : Values := [(0, ⟨.ident (.temp 0), .ofPrim .i32⟩)]
    let store : Store := ⟨[⟨.temp 0, false, .int 2⟩], fun _ => []⟩
    ∃ l e, lowerGlobalPtr ctx values 2 pairs [0, 1] 1 = .ok l ∧
      l.code = .line (.letBind (.temp 2) (some ⟨.i32, 1⟩) e) .done ∧
      e.exact ⟨0, 1⟩ store = some 115 := by
  intro ctx values store
  have hcreate : ∃ b', Builder.create ⟨pairsModule, []⟩ (.globalPtr pairs [0, 1] 1) =
    .ok (b', 2) := ⟨_, rfl⟩
  have hlower : ∃ l, lowerGlobalPtr ctx values 2 pairs [0, 1] 1 = .ok l := ⟨_, rfl⟩
  obtain ⟨b', hcreate⟩ := hcreate
  obtain ⟨l, hlower⟩ := hlower
  have hvalues : IndexValues ctx values 2 ⟨0, 1⟩ store [0, 1] [2, 1] :=
    .cons ⟨_, rfl, rfl⟩ (.cons ⟨_, rfl, rfl⟩ .nil)
  have hinside : Field.Inside [2, 1] pairs.shape :=
    .cons (by decide) (.cons (by decide) .nil)
  obtain ⟨e, i, -, hcode, hexact, hindex, -⟩ :=
    exact_lowerGlobalPtr hcreate hlower hvalues hinside
  cases hindex
  exact ⟨l, e, hlower, hcode, hexact⟩

end Codegen

end WgslKernel
