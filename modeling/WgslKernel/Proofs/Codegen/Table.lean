import WgslKernel.Proofs.Codegen.Lower

/-!
# The table of values at a position of a walk

The generator's table is one flat list that forgets nothing when a block ends.  Nevertheless it has
entries only for statements walked before, and the entry of a visible statement names only visible
statements (`Tabled`).
-/

namespace WgslKernel

open List

/-- The statement that a name is made for. -/
def Ident.owner? : Ident → Option StmtId
  | temp id | counter id | remainder id | seen id | wanted id | outcome id => some id
  | _ => none

namespace Codegen

variable {ctx : Context} {st st' : State} {values : Values} {s : Stmt} {l : Lowering}
  {walked visible around : List StmtId} {x : StmtId}

/-- A constant is written without names. -/
theorem ofConst_ne_ident (c : Const) (n : Ident) : (Value.ofConst c).expr ≠ .ident n := by
  cases c with
  | i32 w =>
    simp only [Value.ofConst, Expr.ofInt32]
    split <;> exact fun h => by cases h
  | f32 bits =>
    simp only [Value.ofConst, Expr.ofFloat]
    split <;> exact fun h => by cases h

/-- A name that stands for a statement belongs to the statement, or to a serial loop around it. -/
theorem Named.owner {n : Ident} {y : StmtId} (h : Named ctx s (.ident n))
    (hn : n.owner? = some y) : y = s.id ∨ s.kind = .loopIndex y ∧ ctx.gridLoop ≠ some y ∧
      y ∈ ctx.module.enclosing s.block := by
  generalize he : Expr.ident n = e at h
  cases h with
  | temp =>
    cases he
    exact .inl (Option.some.inj hn).symm
  | counter hkind hgrid hin =>
    cases he
    cases hn
    exact .inr ⟨hkind, hgrid, hin⟩
  | gridIndex =>
    cases he
    cases hn
  | const c => exact absurd he.symm (ofConst_ne_ident c n)
  | word => cases he

theorem Named.temp_eq {y : StmtId} (h : Named ctx s (.ident (.temp y))) : y = s.id := by
  generalize he : Expr.ident (.temp y) = e at h
  cases h with
  | temp =>
    cases he
    rfl
  | counter | gridIndex | word => cases he
  | const c => exact absurd he.symm (ofConst_ne_ident c _)

/-- The table at a position of a walk. -/
structure Tabled (ctx : Context) (values : Values) (walked visible around : List StmtId) :
    Prop where
  keys : ∀ {x : StmtId} {v : Value}, values.lookup x = some v → x ∈ walked
  walked_of_visible : ∀ {x : StmtId}, x ∈ visible → x ∈ walked
  /-- The serial loops around the position are visible. -/
  loops : ∀ {x : StmtId}, x ∈ around → ctx.module.Plays x .rangeFor → ctx.gridLoop ≠ some x →
    x ∈ visible
  names : ∀ {x y : StmtId} {v : Value} {n : Ident}, x ∈ visible → values.lookup x = some v →
    v.expr = .ident n → n.owner? = some y → y ∈ visible
  /-- Nothing stands for the temporary of another statement. -/
  temps : ∀ {x y : StmtId} {v : Value}, x ∈ visible → values.lookup x = some v →
    v.expr = .ident (.temp y) → y = x

namespace Tabled

/-- A fresh statement has no value. -/
theorem lookup_none (h : Tabled ctx values walked visible around) (hx : x ∉ walked) :
    values.lookup x = none := by
  cases hv : values.lookup x with
  | none => rfl
  | some v => exact absurd (h.keys hv) hx

section Placed

variable {o : Outline} {visible' around' : List StmtId}
  (hplaced : o.Placed ctx.module walked visible' around')

include hplaced

theorem notMem (h : Tabled ctx values walked visible around) : ∀ y ∈ visible, y ∉ o.ids :=
  fun _ hy hmem => hplaced.notMem hmem (h.walked_of_visible hy)

/-- A walk of other statements leaves what stands for the visible ones. -/
theorem unchanged (h : Tabled ctx st.values walked visible around) {code : Code}
    (hwalk : Walks ctx st o st' code) :
    ∀ y ∈ visible, st'.values.lookup y = st.values.lookup y :=
  fun y hy => hwalk.lookup_eq (h.notMem hplaced y hy)

/-- Behind a walk of other statements. -/
theorem walk (h : Tabled ctx st.values walked visible around) {code : Code}
    (hwalk : Walks ctx st o st' code) :
    Tabled ctx st'.values (o.ids ++ walked) visible around where
  keys {y v} hv := by
    by_cases hy : y ∈ o.ids
    · exact mem_append_left _ hy
    · rw [hwalk.lookup_eq hy] at hv
      exact mem_append_right _ (h.keys hv)
  walked_of_visible hy := mem_append_right _ (h.walked_of_visible hy)
  loops := h.loops
  names hy hv := h.names hy (h.unchanged hplaced hwalk _ hy ▸ hv)
  temps hy hv := h.temps hy (h.unchanged hplaced hwalk _ hy ▸ hv)

end Placed

/-- Behind a statement that has no value. -/
theorem pass (h : Tabled ctx values walked visible around) (hx : x ∉ walked) :
    Tabled ctx values (x :: walked) (x :: visible) around where
  keys hv := mem_cons_of_mem _ (h.keys hv)
  walked_of_visible hy := by
    rcases mem_cons.1 hy with rfl | hy
    · exact mem_cons_self
    · exact mem_cons_of_mem _ (h.walked_of_visible hy)
  loops hy hplays hgrid := mem_cons_of_mem _ (h.loops hy hplays hgrid)
  names hy hv he ho := by
    rcases mem_cons.1 hy with rfl | hy
    · rw [h.lookup_none hx] at hv
      cases hv
    · exact mem_cons_of_mem _ (h.names hy hv he ho)
  temps hy hv he := by
    rcases mem_cons.1 hy with rfl | hy
    · rw [h.lookup_none hx] at hv
      cases hv
    · exact h.temps hy hv he

/-- Inside a block of a statement. -/
theorem enter (h : Tabled ctx values walked visible around) (hx : x ∉ walked) :
    Tabled ctx values (x :: walked) (x :: visible) (x :: around) where
  keys := (h.pass hx).keys
  walked_of_visible := (h.pass hx).walked_of_visible
  loops hy hplays hgrid := by
    rcases mem_cons.1 hy with rfl | hy
    · exact mem_cons_self
    · exact (h.pass hx).loops hy hplays hgrid
  names := (h.pass hx).names
  temps := (h.pass hx).temps

/-- More statements may have been walked than are in the table. -/
theorem more (h : Tabled ctx values walked visible around) (extra : List StmtId) :
    Tabled ctx values (extra ++ walked) visible around where
  keys hv := mem_append_right _ (h.keys hv)
  walked_of_visible hy := mem_append_right _ (h.walked_of_visible hy)
  loops := h.loops
  names := h.names
  temps := h.temps

/-- The entry that a lowered statement gets. -/
theorem value_of_lookup (h : Tabled ctx st.values walked visible around)
    (happly : st.apply s.id l = .ok st') (hs : s.id ∉ walked) {v : Value}
    (hv : st'.values.lookup s.id = some v) : l.value = some v := by
  rw [(apply_values happly).1] at hv
  cases hlv : l.value with
  | none =>
    rw [hlv, Option.elim_none, h.lookup_none hs] at hv
    cases hv
  | some w => simpa [hlv] using hv

/-- Behind a statement that was lowered. -/
theorem leaf (h : Tabled ctx st.values walked visible around) (hl : Lowers ctx st.values s l)
    (happly : st.apply s.id l = .ok st') (hs : s.id ∉ walked)
    (hinside : ctx.module.enclosing s.block = around)
    (hadmits : ctx.module.Admits s.block s.kind) :
    Tabled ctx st'.values (s.id :: walked) (s.id :: visible) around where
  keys {y v} hv := by
    by_cases hy : y = s.id
    · exact hy ▸ mem_cons_self
    · rw [apply_lookup happly hy] at hv
      exact mem_cons_of_mem _ (h.keys hv)
  walked_of_visible := (h.pass hs).walked_of_visible
  loops := (h.pass hs).loops
  names {y z v n} hy hv he ho := by
    rcases mem_cons.1 hy with rfl | hy
    · -- The statement itself: it names itself, or a loop around it.
      have hnamed := hl.named (h.value_of_lookup happly hs hv)
      rw [he] at hnamed
      rcases hnamed.owner ho with rfl | ⟨hkind, hgrid, hin⟩
      · exact mem_cons_self
      · rw [hkind] at hadmits
        exact mem_cons_of_mem _ (h.loops (hinside ▸ hin) hadmits.1 hgrid)
    · have hne : y ≠ s.id := fun heq => hs (heq ▸ h.walked_of_visible hy)
      rw [apply_lookup happly hne] at hv
      exact mem_cons_of_mem _ (h.names hy hv he ho)
  temps {y z v} hy hv he := by
    rcases mem_cons.1 hy with rfl | hy
    · have hnamed := hl.named (h.value_of_lookup happly hs hv)
      rw [he] at hnamed
      exact hnamed.temp_eq
    · have hne : y ≠ s.id := fun heq => hs (heq ▸ h.walked_of_visible hy)
      rw [apply_lookup happly hne] at hv
      exact h.temps hy hv he

end Tabled

end Codegen

end WgslKernel
