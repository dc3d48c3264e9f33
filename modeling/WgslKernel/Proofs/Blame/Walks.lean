import WgslKernel.Proofs.Codegen.Offloads

/-!
# Where a walk fails

A walk that ends with an error has come to some statement, and that statement is to blame.  An
operand is missing for one of two reasons only: it yields no value, or the walk has not come to it
yet.
-/

namespace WgslKernel

open List

/-- Statements whose value others can read. -/
def Kind.yields : Kind → Bool
  | const _ | loopIndex _ | argLoad .. | rand _ | unary .. | binary .. | alloca _ | localLoad _
  | globalPtr .. | globalLoad _ | temporary .. | temporaryLoad _ | atomic .. | atomicLoad _
  | vertexInput .. | fragmentInput .. | builtinInput _ | derivative .. | extract .. => true
  | texture (.store _) .. => false
  | texture .. => true
  | _ => false

/-- Statements that own blocks yield no value. -/
theorem Kind.yields_of_childBlocks {kind : Kind} (h : kind.childBlocks ≠ []) :
    kind.yields = false := by
  cases kind <;> simp_all [childBlocks, yields]

section Lists

variable {α : Type} {l₁ l₂ : List α} {x y : α}

theorem pair_sublist_left (h : [x, y].Sublist (l₁ ++ l₂)) (hy : y ∉ l₂) : [x, y].Sublist l₁ := by
  obtain ⟨r₁, r₂, hr, h₁, h₂⟩ := sublist_append_iff.1 h
  rcases eq_nil_or_concat r₂ with rfl | ⟨init, last, rfl⟩
  · rwa [hr, append_nil]
  · -- The last of the two would be in the second part.
    rw [concat_eq_append] at hr h₂
    have hlast : y = last := by
      have := congrArg List.getLast? hr
      simpa [← List.append_assoc] using this
    exact absurd (h₂.subset (by simp [hlast])) hy

theorem pair_sublist_cases (h : [x, y].Sublist (l₁ ++ l₂)) : x ∈ l₁ ∨ [x, y].Sublist l₂ := by
  obtain ⟨r₁, r₂, hr, h₁, h₂⟩ := sublist_append_iff.1 h
  cases r₁ with
  | nil => exact .inr (by rwa [hr])
  | cons z r₁ =>
    obtain ⟨rfl, -⟩ := List.cons.inj hr
    exact .inl (h₁.subset mem_cons_self)

end Lists

namespace Codegen

variable {ctx ctx' : Context} {st st' st₀ : State} {s t : Stmt} {o : Outline} {off : Offload}
  {code : Code} {e : CodegenError} {x : StmtId}

/-- The error `e` of a walk is about a statement it came to, and an operand without a value. -/
def BlamedIn (ctx : Context) (st : State) (o : Outline) (e : CodegenError) : Prop :=
  ∃ st' t, Reaches ctx st o st' t ∧ e.stmt = t.id ∧
    ∀ y, e.foreign? = some y → y ∈ t.kind.operands ∧ ctx.Lacks st'.values y

/-- **A walk that fails blames the statement at which it fails.** -/
theorem blame_of_walk (hloop : ∀ t ∈ o.stmts, ∀ loop, t.kind = .loopIndex loop →
      loop ∈ ctx.module.enclosing t.block)
    (h : walk ctx st o = .error (.error e)) : BlamedIn ctx st o e := by
  obtain ⟨st', t, hreach, hfails⟩ := failsAt_of_walk h
  obtain ⟨hstmt, hforeign, -⟩ := hfails.grounds_error
  exact ⟨st', t, hreach, hstmt, hforeign (hloop t hreach.mem)⟩

/-! ## What the table holds -/

theorem apply_isSome {id : StmtId} {l : Lowering} (h : st.apply id l = .ok st')
    (hx : (st.values.lookup x).isSome) : (st'.values.lookup x).isSome := by
  by_cases hid : x = id
  · rw [(apply_values h).1]
    cases l.value with
    | none => exact hx
    | some v => simp [hid]
  · rwa [apply_lookup h hid]

/-- Values that are there stay there. -/
theorem Reaches.isSome (h : Reaches ctx st o st' t) (hx : (st.values.lookup x).isSome) :
    (st'.values.lookup x).isSome :=
  h.keeps (P := fun st => (st.values.lookup x).isSome)
    (fun _ hx _ happly => apply_isSome happly hx) hx

/-- A statement has a value exactly if it yields one. -/
theorem Lowers.value_isSome {values : Values} {l : Lowering} (h : Lowers ctx values s l) :
    l.value.isSome = s.kind.yields := by
  cases h with
  | sample hkind _ hl | sampleLod hkind _ _ hl =>
    obtain ⟨use, e, type, -, -, rfl⟩ := sampleTexture_eq_ok hl
    rw [hkind]
    rfl
  | _ =>
    rw [‹s.kind = _›]
    rfl

/-- **Behind a walk there is a value for each statement that yields one.** -/
theorem Walks.known (h : Walks ctx st o st' code) (ho : o.Owned) (ht : t ∈ o.stmts)
    (hyields : t.kind.yields = true) : (st'.values.lookup t.id).isSome := by
  refine h.along (P := fun st walked => ∀ u ∈ walked, u.kind.yields = true →
      (st.values.lookup u.id).isSome) ho
    (fun {_ _ s} _ hblocks hst u hu hyields => ?_)
    (fun {_ _ _ s l} _ hblocks hlower happly hst u hu hyields => ?_) (by simp) t ht hyields
  · rcases mem_append.1 hu with hu | hu
    · exact hst u hu hyields
    · rw [mem_singleton.1 hu, Kind.yields_of_childBlocks hblocks] at hyields
      cases hyields
  · rcases mem_append.1 hu with hu | hu
    · exact apply_isSome happly (hst u hu hyields)
    · obtain rfl := mem_singleton.1 hu
      have hvalue := (lowers_of_lower hblocks hlower).value_isSome
      rw [hyields] at hvalue
      obtain ⟨v, hv⟩ := Option.isSome_iff_exists.1 hvalue
      simp [(apply_values happly).1, hv]

/-- **Where a statement is reached**, statements before it that yield a value have one. -/
theorem Reaches.known (h : Reaches ctx st o st' t) (ho : o.Owned) (hnodup : o.ids.Nodup)
    (hyields : ∀ u ∈ o.stmts, u.id = x → u.kind.yields = true)
    (hbefore : [x, t.id].Sublist o.ids) : (st'.values.lookup x).isSome := by
  -- A part of the outline that was walked as a whole.
  have hpart {p : Outline} {st st' : State} {code : Code} (hwalk : walk ctx st p = .ok (st', code))
      (hp : p.Owned) (hyields : ∀ u ∈ p.stmts, u.id = x → u.kind.yields = true) (hx : x ∈ p.ids) :
      (st'.values.lookup x).isSome := by
    obtain ⟨u, hu, rfl⟩ := mem_map.1 hx
    exact (walks_of_walk hwalk).known hp hu (hyields u hu rfl)
  -- What is before a statement inside of another one is not the other one, which yields no value.
  have inside {s : Stmt} {first second rest : Outline} {kind : Kind} {y : StmtId}
      (hkind : s.kind = kind) (hno : kind.yields = false)
      (hyields : ∀ u ∈ (Outline.cons s first second rest).stmts, u.id = x → u.kind.yields = true)
      (hbefore : [x, y].Sublist (Outline.cons s first second rest).ids) :
      [x, y].Sublist (first.ids ++ (second.ids ++ rest.ids)) := by
    have hx : s.id ≠ x := fun heq => by
      have := hyields s (by simp [Outline.stmts]) heq
      rw [hkind, hno] at this
      cases this
    rw [Outline.ids_cons] at hbefore
    have hcases : x ∈ [s.id] ∨ _ := pair_sublist_cases hbefore
    exact hcases.resolve_left (by simpa using hx.symm)
  induction h with
  | here =>
    rw [Outline.ids_cons, nodup_cons] at hnodup
    rw [Outline.ids_cons] at hbefore
    cases hbefore with
    | cons _ h => exact absurd (h.subset (by simp)) hnodup.1
    | cons_cons _ h => exact absurd (h.subset (by simp)) hnodup.1
  | thenPart hkind _ hreach ih | loopBody hkind hreach ih | countBody hkind _ hreach ih =>
    obtain ⟨-, -, hf, -, -⟩ := ho
    obtain ⟨-, hnf, -, -, hsplit, -⟩ := Outline.nodup_ids_cons.1 hnodup
    have ht := hsplit _ (mem_map_of_mem hreach.mem)
    have hrest := inside hkind rfl hyields hbefore
    refine ih hf hnf (fun u hu => hyields u (by simp [Outline.stmts, hu])) ?_
    exact pair_sublist_left hrest (by simpa using ht)
  | elsePart hkind _ hfirst hreach ih =>
    obtain ⟨-, -, hf, hs, -⟩ := ho
    obtain ⟨-, -, hns, -, -, hsplit⟩ := Outline.nodup_ids_cons.1 hnodup
    have ht := hsplit _ (mem_map_of_mem hreach.mem)
    have hrest := inside hkind rfl hyields hbefore
    rcases pair_sublist_cases hrest with hx | hrest
    · exact hreach.isSome (hpart hfirst hf (fun u hu => hyields u (by simp [Outline.stmts, hu])) hx)
    · refine ih hs hns (fun u hu => hyields u (by simp [Outline.stmts, hu])) ?_
      exact pair_sublist_left hrest ht
  | later hdone hreach ih =>
    obtain ⟨hnil, hnil', hf, hs, hr⟩ := ho
    obtain ⟨-, -, -, hnr, -, -⟩ := Outline.nodup_ids_cons.1 hnodup
    rename_i s t first second rest code
    have hids : (Outline.cons s first second rest).ids =
        (Outline.cons s first second .nil).ids ++ rest.ids := by simp
    rw [hids] at hbefore
    rcases pair_sublist_cases hbefore with hx | hrest
    · refine hreach.isSome (hpart hdone ⟨hnil, hnil', hf, hs, trivial⟩ (fun u hu => ?_) hx)
      refine hyields u ?_
      simp only [Outline.stmts, append_nil, mem_cons, mem_append] at hu ⊢
      exact hu.imp id fun hu => hu.imp id .inl
    · exact ih hr hnr (fun u hu => hyields u (by simp [Outline.stmts, hu])) hrest

/-- The bound of a parallel loop is blamed on the loop, or on the temporary that holds it. -/
theorem blame_of_gridBound {bound : RangeBound} {serial : Bool} {body : BlockId}
    (hkind : s.kind = .rangeFor bound serial body)
    (h : gridBound ctx s.id bound = .error (.error e)) :
    (e.stmt = s.id ∧ ∀ y, e.foreign? = some y → y ∈ s.kind.operands ∧
      (∀ c, ctx.module.kind? y ≠ some (.const c)) ∧
      ∀ ptr, ctx.module.kind? y ≠ some (.temporaryLoad ptr)) ∨
    (∃ ty offset, ctx.module.kind? e.stmt = some (.temporary ty offset)) ∧ e.foreign? = none := by
  cases boundFails_of_gridBound h with
  | @foreign x hbound hconst hload =>
    refine .inl ⟨rfl, fun y hy => ?_⟩
    cases hy
    exact ⟨by simp [hkind, hbound, Kind.operands], hconst, hload⟩
  | float | dynamic | size => exact .inl ⟨rfl, by simp⟩
  | misaligned hptr | outside hptr => exact .inr ⟨⟨_, _, hptr⟩, rfl⟩

/-- The error `e` of an offload is about its root, the bound of the root, or a temporary. -/
def BlamedAt (m : Module) (off : Offload) (e : CodegenError) : Prop :=
  ∃ s : Stmt, off.stmts = [s.id] ∧ m.stmts[s.id]? = some s ∧
    ((e.stmt = s.id ∧ ∀ y, e.foreign? = some y → y ∈ s.kind.operands ∧
      (∀ c, m.kind? y ≠ some (.const c)) ∧ ∀ ptr, m.kind? y ≠ some (.temporaryLoad ptr)) ∨
    (∃ ty offset, m.kind? e.stmt = some (.temporary ty offset)) ∧ e.foreign? = none)

/-- A draft fails in its walk, or at its root. -/
theorem blame_of_draft (hinv : ctx.module.Inv) (ho : off ∈ ctx.module.groups)
    (hstage : ctx.stage = off.kind.stage) (h : draft ctx st off = .error (.error e)) :
    (∃ ctx' st₀ o, Starts ctx st off ctx' st₀ o ∧ walk ctx' st₀ o = .error (.error e)) ∨
      BlamedAt ctx.module off e := by
  cases draftFails_of_draft hinv ho hstage h with
  | walk hstarts h => exact .inl ⟨_, _, _, hstarts, h⟩
  | bound hstmts hs hkind h => exact .inr ⟨_, hstmts, hs, blame_of_gridBound hkind h⟩
  | slots _ _ _ _ _ _ he => cases he
  | workgroups h =>
    obtain ⟨f, he⟩ := fault_of_workgroups h
    cases he
  | position hstmts hs hkind h =>
    obtain ⟨a, b, he⟩ := addMember_eq_error h
    cases he
    exact .inr ⟨_, hstmts, hs, .inl ⟨rfl, by simp⟩⟩

end Codegen

end WgslKernel
