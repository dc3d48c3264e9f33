import WgslKernel.Proofs.Access.Reach

/-!
# What a walk reads and emits

What holds of every entry that a lowering makes holds of the table wherever a walk has come to; that
an entry is a name, a constant or the number of a word is the case used most (`Operand`).  The code
of a statement stands in the shader as it was lowered.
-/

namespace WgslKernel

/-! ## Pieces of code -/

namespace Code

/-- What is left to execute at each place in a sequence, the places in its bodies included. -/
def tails : Code → List Code
  | done => [done]
  | line l rest => line l rest :: rest.tails
  | branch c yes rest => branch c yes rest :: (yes.tails ++ rest.tails)
  | branchElse c yes no rest =>
    branchElse c yes no rest :: (yes.tails ++ (no.tails ++ rest.tails))
  | loop body rest => loop body rest :: (body.tails ++ rest.tails)
  | countLoop h body rest => countLoop h body rest :: (body.tails ++ rest.tails)

/-- Some place in `code` starts with `piece`. -/
def Contains (code piece : Code) : Prop := ∃ rest, piece ++ rest ∈ code.tails

theorem mem_tails_self (c : Code) : c ∈ c.tails := by
  cases c <;> simp [tails]

theorem contains_append_left (piece rest : Code) : (piece ++ rest).Contains piece :=
  ⟨rest, mem_tails_self _⟩

theorem Contains.mono {code code' piece : Code} (h : code.Contains piece)
    (hsub : code.tails ⊆ code'.tails) : code'.Contains piece :=
  h.imp fun _ hrest => hsub hrest

/-- Code that goes on with `c` has the places of `c`. -/
theorem Contains.append_left {c piece : Code} (h : c.Contains piece) (before : Code) :
    (before ++ c).Contains piece := by
  induction before with
  | done => exact h
  | line | branch | branchElse | loop | countLoop =>
    refine Contains.mono ‹_› fun d hd => ?_
    simp [tails, hd]

end Code

namespace Codegen

variable {ctx ctx' : Context} {st st' st₀ : State} {values : Values} {s t : Stmt} {l : Lowering}
  {o : Outline} {code : Code} {off : Offload} {P : StmtId → Value → Prop}

/-! ## Entries of the table -/

/-- Every entry of the table has a property. -/
def Values.Entries (values : Values) (P : StmtId → Value → Prop) : Prop :=
  ∀ x v, values.lookup x = some v → P x v

theorem entries_nil : Values.Entries [] P := fun _ _ h => by cases h

/-- What an operand is read as has the property of the table, if constants have it. -/
theorem Values.Entries.value (h : values.Entries P) {user x : StmtId} {v : Value}
    (hconst : ∀ c, ctx.module.kind? x = some (.const c) → P x (.ofConst c))
    (hv : ctx.value values user x = .ok v) : P x v := by
  rcases value_eq_ok.1 hv with hv | ⟨-, c, hc, rfl⟩
  · exact h x v hv
  · exact hconst c hc

/-- Entries are kept by statements. -/
theorem apply_entries {id : StmtId} (hst : st.values.Entries P)
    (hl : ∀ v, l.value = some v → P id v) (h : st.apply id l = .ok st') :
    st'.values.Entries P := by
  intro x w hw
  rw [(apply_values h).1] at hw
  cases hv : l.value with
  | none =>
    rw [hv] at hw
    exact hst x w hw
  | some v =>
    rw [hv, Option.elim_some, List.lookup_cons] at hw
    split at hw
    · rename_i hx
      cases hw
      exact eq_of_beq hx ▸ hl _ hv
    · exact hst x w hw

/-- A property of every entry that a statement of the outline can get. -/
def Yields (ctx : Context) (o : Outline) (P : StmtId → Value → Prop) : Prop :=
  ∀ s ∈ o.stmts, ∀ values l v, Lowers ctx values s l → l.value = some v → P s.id v

/-- **What a walk adds to the table is what its statements are lowered to.** -/
theorem Walks.entries (h : Walks ctx st o st' code) (hP : Yields ctx o P)
    (hst : st.values.Entries P) : st'.values.Entries P :=
  h.keeps (P := fun st => st.values.Entries P)
    (fun hs hst hl happly => apply_entries hst (fun v => hP _ hs _ _ v hl) happly) hst

/-- The same where the walk has come to. -/
theorem Reaches.entries (h : Reaches ctx st o st' t) (hP : Yields ctx o P)
    (hst : st.values.Entries P) : st'.values.Entries P :=
  h.keeps (P := fun st => st.values.Entries P)
    (fun hs hst hl happly => apply_entries hst (fun v => hP _ hs _ _ v hl) happly) hst

/-! ## Operands -/

/-- What can stand for a statement in the code of others. -/
inductive Operand : Expr → Prop where
  | temp (x : StmtId) : Operand (.ident (.temp x))
  | counter (loop : StmtId) : Operand (.ident (.counter loop))
  | gridIndex : Operand (.ident .gridIndex)
  | const (c : Const) : Operand (Value.ofConst c).expr
  | word (k : Nat) : Operand (.lit (.abstract k))

/-- What stands for a statement is an operand. -/
theorem Named.operand {e : Expr} (h : Named ctx s e) : Operand e := by
  cases h with
  | temp => exact .temp _
  | counter => exact .counter _
  | gridIndex => exact .gridIndex
  | const c => exact .const c
  | word k => exact .word k

/-- All entries of the table are operands. -/
def Values.Operands (values : Values) : Prop := values.Entries fun _ v => Operand v.expr

theorem yields_operand : Yields ctx o fun _ v => Operand v.expr :=
  fun _ _ _ _ _ hl hv => (hl.named hv).operand

theorem Values.Operands.value (h : values.Operands) {user x : StmtId} {v : Value}
    (hv : ctx.value values user x = .ok v) : Operand v.expr :=
  Values.Entries.value h (fun c _ => .const c) hv

/-- **The code of a statement stands in the code of the walk.** -/
theorem Reaches.emits (h : Reaches ctx st o st₀ t) (hleaf : t.kind.isStructured = false)
    (hl : lower ctx st₀.values t = .ok l) (hwalk : walk ctx st o = .ok (st', code)) :
    code.Contains l.code := by
  induction h generalizing st' code with
  | here =>
    cases walks_of_walk hwalk with
    | branch hkind | loop hkind | count hkind => simp [hkind, Kind.isStructured] at hleaf
    | leaf _ hlower =>
      rw [hl] at hlower
      cases hlower
      exact Code.contains_append_left _ _
  | @thenPart _ _ _ _ _ second _ _ _ _ _ hkind hcond _ ih =>
    simp only [walk, hkind, hcond, ok_bind] at hwalk
    obtain ⟨⟨st₁, yes⟩, hyes, hwalk⟩ := bind_eq_ok.1 hwalk
    obtain ⟨⟨st₂, no⟩, -, hwalk⟩ := bind_eq_ok.1 hwalk
    obtain ⟨⟨st₃, tail⟩, -, hwalk⟩ := bind_eq_ok.1 hwalk
    have hsome := ih hleaf hl hyes
    cases hempty : second.isEmpty with
    | true | false =>
      simp only [hempty] at hwalk
      cases hwalk
      exact hsome.mono fun d hd => by simp [Code.tails, hd]
  | @elsePart _ _ _ _ _ _ second _ _ _ _ _ _ hkind hcond hfirst hreach ih =>
    simp only [walk, hkind, hcond, hfirst, ok_bind] at hwalk
    obtain ⟨⟨st₂, no⟩, hno, hwalk⟩ := bind_eq_ok.1 hwalk
    obtain ⟨⟨st₃, tail⟩, -, hwalk⟩ := bind_eq_ok.1 hwalk
    -- A side with a statement in it is not left out.
    have hempty : second.isEmpty = false := by
      cases hreach <;> rfl
    simp only [hempty] at hwalk
    cases hwalk
    exact (ih hleaf hl hno).mono fun d hd => by simp [Code.tails, hd]
  | loopBody hkind _ ih =>
    simp only [walk, hkind] at hwalk
    obtain ⟨⟨st₁, body⟩, hbody, hwalk⟩ := bind_eq_ok.1 hwalk
    obtain ⟨⟨st₂, tail⟩, -, hwalk⟩ := bind_eq_ok.1 hwalk
    cases hwalk
    exact (ih hleaf hl hbody).mono fun d hd => by simp [Code.tails, hd]
  | countBody hkind hstop _ ih =>
    simp only [walk, hkind, hstop, ok_bind] at hwalk
    obtain ⟨⟨st₁, body⟩, hbody, hwalk⟩ := bind_eq_ok.1 hwalk
    obtain ⟨⟨st₂, tail⟩, -, hwalk⟩ := bind_eq_ok.1 hwalk
    cases hwalk
    exact (ih hleaf hl hbody).mono fun d hd => by simp [Code.tails, hd]
  | later hdone _ ih =>
    rw [walk_cons, hdone, ok_bind] at hwalk
    obtain ⟨⟨st₂, tail⟩, hrest, hwalk⟩ := bind_eq_ok.1 hwalk
    cases hwalk
    exact (ih hleaf hl hrest).append_left _

/-- The body of a draft is the code of its walk, or that in the parallel loop. -/
theorem Starts.body {d : Draft} (h : Starts ctx st off ctx' st₀ o) (hd : draft ctx st off = .ok d) :
    ∃ code, walk ctx' st₀ o = .ok (d.state, code) ∧ code.tails ⊆ d.body.tails := by
  obtain ⟨wrap, hdraft, hwrap⟩ := h.draft_eq
  rw [hdraft] at hd
  obtain ⟨⟨st', code⟩, hwalk, hd⟩ := bind_eq_ok.1 hd
  cases hd
  obtain ⟨hstate, hbody⟩ := hwrap (st', code)
  refine ⟨code, by rw [hstate]; exact hwalk, ?_⟩
  rcases hbody with hbody | hbody <;> rw [hbody]
  · exact List.Subset.refl _
  · exact fun c hc => by simp [Code.tails, hc]

section Program

variable {m : Module} {signature : Signature} {config : Config} {previous : Option Task}

/-- What is at hand where the generator has come to. -/
theorem Reached.operands (h : Reached m off signature config previous st t) :
    st.values.Operands := by
  obtain ⟨bindings, ctx', st₀, o, -, hstarts, hreaches⟩ := h
  refine hreaches.entries yields_operand ?_
  rw [hstarts.values_eq]
  exact entries_nil

/-- **The code of a statement stands in the shader of its offload.** -/
theorem Reached.emits {p : Program} (h : Reached m off signature config previous st t)
    (hleaf : t.kind.isStructured = false)
    (hl : ∀ grid, lower { contextOf m off signature config previous with gridLoop := grid }
      st.values t = .ok l)
    (hp : program m off signature config previous = .ok p) : p.shader.body.Contains l.code := by
  obtain ⟨bindings, ctx', st₀, o, hbindings, hstarts, hreaches⟩ := h
  obtain ⟨bindings', hbindings', hp⟩ := bind_eq_ok.1 hp
  cases hbindings.symm.trans (orFault_eq_ok.1 hbindings')
  obtain ⟨d, hd, hp⟩ := bind_eq_ok.1 hp
  cases hp
  obtain ⟨code, hwalk, hsub⟩ := hstarts.body hd
  refine Code.Contains.mono (hreaches.emits hleaf ?_ hwalk) hsub
  rw [hstarts.context_eq]
  exact hl _

end Program

end Codegen

end WgslKernel
