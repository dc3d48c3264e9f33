import WgslKernel.Proofs.Scoping.Supply

/-!
# Scopes along a walk

The table of a walk forgets nothing, while the scopes of a shader end at their braces.  `InScope`
connects the two, and each step of a walk keeps it.
-/

namespace WgslKernel.Codegen

open List

variable {ctx : Context} {st st' : State} {values values' : Values} {s : Stmt} {l : Lowering}
  {walked visible around : List StmtId} {scope : List Name} {x : StmtId} {o : Outline} {code : Code}

/-! ## A position of a walk -/

/-- What is known at a position of a walk, with the declarations `scope`: `P` holds of what stands
for the visible statements, and the counters of the loops around are declared. -/
structure Knows {α : Type} (P : List α → StmtId → Value → Prop) (decl : Ident → α) (ctx : Context)
    (values : Values) (visible around : List StmtId) (scope : List α) : Prop where
  entry : ∀ {x : StmtId} {v : Value}, x ∈ visible → values.lookup x = some v → P scope x v
  counter : ∀ {x : StmtId}, x ∈ around → ctx.module.Plays x .rangeFor → ctx.gridLoop ≠ some x →
    decl (.counter x) ∈ scope
  grid : ∀ {x : StmtId}, ctx.gridLoop = some x → decl .gridIndex ∈ scope

namespace Knows

variable {α : Type} {P : List α → StmtId → Value → Prop} {decl : Ident → α} {scope : List α}

/-- Behind a statement that has no value. -/
theorem pass (h : Knows P decl ctx values visible around scope) (hx : values.lookup x = none) :
    Knows P decl ctx values (x :: visible) around scope where
  entry hy hv := by
    rcases mem_cons.1 hy with rfl | hy
    · rw [hx] at hv
      cases hv
    · exact h.entry hy hv
  counter := h.counter
  grid := h.grid

/-- Inside a block of a statement that is no range-for. -/
theorem enter (h : Knows P decl ctx values visible around scope)
    (hx : ¬ ctx.module.Plays x .rangeFor) :
    Knows P decl ctx values visible (x :: around) scope where
  entry := h.entry
  counter hy hplays hgrid := by
    rcases mem_cons.1 hy with rfl | hy
    · exact absurd hplays hx
    · exact h.counter hy hplays hgrid
  grid := h.grid

/-- With other values for statements that are not visible. -/
theorem congr (h : Knows P decl ctx values visible around scope)
    (hvalues : ∀ y ∈ visible, values'.lookup y = values.lookup y) :
    Knows P decl ctx values' visible around scope where
  entry hy hv := h.entry hy (hvalues _ hy ▸ hv)
  counter := h.counter
  grid := h.grid

/-- Inside the body of a range-for. -/
theorem count (h : Knows P decl ctx values visible around scope)
    (mono : ∀ {a b x v}, P a x v → a ⊆ b → P b x v) (x : StmtId) :
    Knows P decl ctx values visible (x :: around) (decl (.counter x) :: scope) where
  entry hy hv := mono (h.entry hy hv) (subset_cons_self _ _)
  counter hy hplays hgrid := by
    rcases mem_cons.1 hy with rfl | hy
    · exact mem_cons_self
    · exact mem_cons_of_mem _ (h.counter hy hplays hgrid)
  grid hx := mem_cons_of_mem _ (h.grid hx)

/-- Behind a statement that was lowered, and has declared `own`. -/
theorem leaf {own : List α} (h : Knows P decl ctx st.values visible around scope)
    (mono : ∀ {a b x v}, P a x v → a ⊆ b → P b x v)
    (htab : Tabled ctx st.values walked visible around) (happly : st.apply s.id l = .ok st')
    (hs : s.id ∉ walked) (hself : ∀ v, l.value = some v → P (own ++ scope) s.id v) :
    Knows P decl ctx st'.values (s.id :: visible) around (own ++ scope) where
  entry {y v} hy hv := by
    rcases mem_cons.1 hy with rfl | hy
    · exact hself v (htab.value_of_lookup happly hs hv)
    · have hne : y ≠ s.id := fun heq => hs (heq ▸ htab.walked_of_visible hy)
      rw [apply_lookup happly hne] at hv
      exact mono (h.entry hy hv) (subset_append_right _ _)
  counter hy hplays hgrid := mem_append_right _ (h.counter hy hplays hgrid)
  grid hx := mem_append_right _ (h.grid hx)

end Knows

/-- What stands for visible statements is in scope, and so are the counters of loops around. -/
abbrev InScope (ctx : Context) (values : Values) (visible around : List StmtId)
    (scope : List Name) : Prop :=
  Knows (fun scope _ v => v.expr.names ⊆ scope) .ident ctx values visible around scope

/-- The operands of a statement are in scope. -/
theorem InScope.value (h : InScope ctx values visible around scope)
    (htab : Tabled ctx values walked visible around)
    (hscope : ∀ x ∈ s.kind.operands, x ∈ walked → x ∈ visible) :
    ∀ x ∈ s.kind.operands, ∀ v, ctx.value values s.id x = .ok v → v.expr.names ⊆ scope := by
  intro x hx v hv
  rcases value_eq_ok.1 hv with hv | ⟨-, c, -, rfl⟩
  · exact h.entry (hscope x hx (htab.keys hv)) hv
  · simp

theorem branchCondition_names {cond : StmtId} {c : Expr}
    (hvalues : ∀ v, ctx.value values s.id cond = .ok v → v.expr.names ⊆ scope)
    (h : branchCondition ctx values s.id cond = .ok c) : c.names ⊆ scope := by
  obtain ⟨v, hv, h⟩ := bind_eq_ok.1 h
  cases h
  simpa using hvalues v (scalar_eq_ok.1 hv).1

theorem loopBound_names {bound : RangeBound} {serial : Bool} {body : BlockId} {stop : Expr}
    (hkind : s.kind = .rangeFor bound serial body)
    (hvalues : ∀ x ∈ s.kind.operands, ∀ v, ctx.value values s.id x = .ok v → v.expr.names ⊆ scope)
    (h : loopBound ctx values s.id bound = .ok stop) : stop.names ⊆ scope := by
  rcases loopBound_eq_ok h with ⟨f, n, -, -, rfl⟩ | ⟨x, v, rfl, hv, -, rfl⟩
  · simp
  · exact hvalues x (by simp [hkind, Kind.operands]) v hv

section Steps

variable
  (hadmitted : ∀ (i : Nat) (s : Stmt), ctx.module.stmts[i]? = some s →
    ctx.module.Admits s.block s.kind)

include hadmitted

/-- **The code of a walk is scoped**, if everything it asked for is declared. -/
theorem Walks.scoped (h : Walks ctx st o st' code) : ∀ {walked visible around : List StmtId}
    {scope : List Name}, o.Placed ctx.module walked visible around →
    Tabled ctx st.values walked visible around → InScope ctx st.values visible around scope →
    (ctx.stage = .vertex → st.Offers (.ident .stageOutput)) → (∀ n, st'.Offers n → n ∈ scope) →
    code.Scoped scope := by
  induction h with
  | nil => exact fun _ _ _ _ _ => trivial
  | @branch st st₁ st₂ st₃ s first second rest _ _ _ c yes no tail hkind hcond hfirst hsecond hrest
      ihFirst ihSecond ihRest =>
    intro walked visible around scope hplaced htab hin hvertex hoffers
    cases hplaced with
    | cons found fresh hscope _ hpfirst hpsecond hprest =>
      have hvalues := hin.value htab hscope
      rw [hkind] at hvalues
      have hplays : ¬ ctx.module.Plays s.id .rangeFor :=
        not_plays_rangeFor found (by simp [hkind])
      have htabFirst := htab.enter fresh
      have htabSecond := htabFirst.walk hpfirst hfirst
      have htabRest := ((htab.pass fresh).walk hpfirst hfirst).walk hpsecond hsecond
      have hin₀ := hin.pass (htab.lookup_none fresh)
      have hin₁ := hin₀.congr (htabFirst.unchanged hpfirst hfirst)
      have hin₂ := hin₁.congr (htabSecond.unchanged hpsecond hsecond)
      have hc := branchCondition_names (hvalues _ mem_cons_self) hcond
      have hyes := ihFirst hpfirst htabFirst (hin₀.enter hplays) hvertex
        fun n hn => hoffers n (hrest.offers (hsecond.offers hn))
      have hno := ihSecond hpsecond htabSecond (hin₁.enter hplays)
        (fun hstage => hfirst.offers (hvertex hstage)) fun n hn => hoffers n (hrest.offers hn)
      have htail := ihRest hprest htabRest hin₂
        (fun hstage => hsecond.offers (hfirst.offers (hvertex hstage))) hoffers
      unfold branchCode
      split
      · exact ⟨hc, hyes, htail⟩
      · exact ⟨hc, hyes, hno, htail⟩
  | @loop st st₁ st₂ s first second rest _ body tail hkind hfirst hrest ihFirst ihRest =>
    intro walked visible around scope hplaced htab hin hvertex hoffers
    cases hplaced with
    | cons found fresh hscope _ hpfirst hpsecond hprest =>
      have hplays : ¬ ctx.module.Plays s.id .rangeFor :=
        not_plays_rangeFor found (by simp [hkind])
      have htabFirst := htab.enter fresh
      have htabRest := ((htab.pass fresh).walk hpfirst hfirst).more second.ids
      have hin₀ := hin.pass (htab.lookup_none fresh)
      have hin₁ := hin₀.congr (htabFirst.unchanged hpfirst hfirst)
      exact ⟨ihFirst hpfirst htabFirst (hin₀.enter hplays) hvertex
          fun n hn => hoffers n (hrest.offers hn),
        ihRest hprest htabRest hin₁ (fun hstage => hfirst.offers (hvertex hstage)) hoffers⟩
  | @count st st₁ st₂ s first second rest _ _ _ stop body tail hkind hstop hfirst hrest ihFirst
      ihRest =>
    intro walked visible around scope hplaced htab hin hvertex hoffers
    cases hplaced with
    | cons found fresh hscope _ hpfirst hpsecond hprest =>
      have htabFirst := htab.enter fresh
      have htabRest := ((htab.pass fresh).walk hpfirst hfirst).more second.ids
      have hin₀ := hin.pass (htab.lookup_none fresh)
      have hin₁ := hin₀.congr (htabFirst.unchanged hpfirst hfirst)
      have hstop := loopBound_names hkind (hin.value htab hscope) hstop
      exact ⟨by simp [LoopHeader.names, serialLoop, hstop],
        ihFirst hpfirst htabFirst (hin₀.count List.Subset.trans s.id) hvertex
          fun n hn => mem_cons_of_mem _ (hoffers n (hrest.offers hn)),
        ihRest hprest htabRest hin₁ (fun hstage => hfirst.offers (hvertex hstage)) hoffers⟩
  | @leaf st st₁ st₂ s first second rest l tail hkind hlower happly hrest ihRest =>
    intro walked visible around scope hplaced htab hin hvertex hoffers
    cases hplaced with
    | cons found fresh hscope hinside _ _ hprest =>
      have hl := lowers_of_lower hkind hlower
      have hadmits := hadmitted _ _ found
      have hstart : ∀ n, st₁.Offers n → n ∈ scope := fun n hn => hoffers n (hrest.offers hn)
      have hsupplied : Supplied ctx st.values s l scope :=
        ⟨hin.value htab hscope, fun n hn => hstart n ((apply_offers happly).2 (.inr hn)),
          fun _ _ hstage => hstart _ ((apply_offers happly).2 (.inl (hvertex hstage)))⟩
      refine Code.scoped_append.2 ⟨hl.scoped hsupplied, ?_⟩
      exact ihRest hprest
        (((htab.leaf hl happly fresh hinside hadmits).more first.ids).more second.ids)
        (hin.leaf List.Subset.trans htab happly fresh fun v hv =>
          hl.value_names hv (fun _ hloop => hin.grid hloop) fun loop hkind hgrid => by
            rw [hkind] at hadmits
            exact hin.counter (hinside ▸ hadmits.2) hadmits.1 hgrid)
        (fun hstage => (apply_offers happly).2 (.inl (hvertex hstage)))
        (fun n hn => mem_append_right _ (hoffers n hn))

end Steps

/-! ## What a walk declares -/

/-- Names of some statements, none of them twice. -/
structure OwnedBy (xs : List StmtId) (names : List Name) : Prop where
  owner : ∀ n ∈ names, ∃ x ∈ xs, n.owner? = some x
  nodup : names.Nodup

theorem OwnedBy.append {xs ys : List StmtId} {a b : List Name} (ha : OwnedBy xs a)
    (hb : OwnedBy ys b) (hdisjoint : ∀ x ∈ xs, x ∉ ys) : OwnedBy (xs ++ ys) (a ++ b) where
  owner n hn := by
    rcases mem_append.1 hn with hn | hn
    · obtain ⟨x, hx, hown⟩ := ha.owner n hn
      exact ⟨x, mem_append_left _ hx, hown⟩
    · obtain ⟨x, hx, hown⟩ := hb.owner n hn
      exact ⟨x, mem_append_right _ hx, hown⟩
  nodup := by
    refine nodup_append.2 ⟨ha.nodup, hb.nodup, fun n hn n' hn' heq => ?_⟩
    obtain ⟨x, hx, hown⟩ := ha.owner n hn
    obtain ⟨y, hy, hown'⟩ := hb.owner n' hn'
    rw [heq, hown'] at hown
    exact hdisjoint x hx (Option.some.inj hown ▸ hy)

theorem OwnedBy.mono {xs ys : List StmtId} {a : List Name} (h : OwnedBy xs a) (hsub : xs ⊆ ys) :
    OwnedBy ys a where
  owner n hn := by
    obtain ⟨x, hx, hown⟩ := h.owner n hn
    exact ⟨x, hsub hx, hown⟩
  nodup := h.nodup

theorem Lowering.Tidy.ownedBy {id : StmtId} (h : l.Tidy id) : OwnedBy [id] l.code.declared where
  owner n hn := ⟨id, mem_cons_self, h.owned n hn⟩
  nodup := h.nodup

theorem branchCode_declared {c : Expr} {second : Outline} {yes no tail : Code}
    (hempty : second.isEmpty = true → no = .done) :
    (branchCode c second yes no tail).declared = yes.declared ++ (no.declared ++ tail.declared) ∧
      (branchCode c second yes no tail).headers = yes.headers ++ (no.headers ++ tail.headers) := by
  unfold branchCode
  split
  · rename_i h
    rw [hempty h]
    exact ⟨rfl, rfl⟩
  · exact ⟨rfl, rfl⟩

/-- **What a walk declares belongs to the statements walked, and nothing is declared twice.** -/
theorem Walks.ownedBy (h : Walks ctx st o st' code) (hids : o.ids.Nodup) :
    OwnedBy o.ids code.declared := by
  induction h with
  | nil => exact ⟨fun _ hn => absurd hn not_mem_nil, nodup_nil⟩
  | branch _ _ _ hsecond _ ihFirst ihSecond ihRest =>
    obtain ⟨-, hnodup₁, hnodup₂, hnodup₃, hsep, hsep'⟩ := Outline.nodup_ids_cons.1 hids
    rw [(branchCode_declared hsecond.done_of_isEmpty).1, Outline.ids_cons]
    have htail := (ihSecond hnodup₂).append (ihRest hnodup₃) hsep'
    have hall := (ihFirst hnodup₁).append htail fun x hx => by simpa using hsep x hx
    exact hall.mono (subset_cons_self _ _)
  | loop _ _ _ ihFirst ihRest =>
    obtain ⟨-, hnodup₁, -, hnodup₃, hsep, -⟩ := Outline.nodup_ids_cons.1 hids
    refine ((ihFirst hnodup₁).append (ihRest hnodup₃) fun x hx => (hsep x hx).2).mono ?_
    intro x hx
    rcases mem_append.1 hx with hx | hx <;> simp [hx]
  | @count _ _ _ s _ _ _ _ _ _ _ _ _ _ _ _ _ ihFirst ihRest =>
    obtain ⟨⟨hself, -, hself'⟩, hnodup₁, -, hnodup₃, hsep, -⟩ := Outline.nodup_ids_cons.1 hids
    have hcounter : OwnedBy [s.id] [.ident (.counter s.id)] :=
      ⟨fun n hn => ⟨s.id, mem_cons_self, by rw [mem_singleton.1 hn]; rfl⟩,
        nodup_singleton _⟩
    have hbody := (ihFirst hnodup₁).append (ihRest hnodup₃) fun x hx => (hsep x hx).2
    refine (hcounter.append hbody fun x hx => ?_).mono ?_
    · rw [mem_singleton.1 hx, mem_append, not_or]
      exact ⟨hself, hself'⟩
    · intro x hx
      simp only [mem_append, mem_singleton] at hx
      rcases hx with hx | hx | hx <;> simp [hx]
  | leaf hkind hlower _ _ ihRest =>
    obtain ⟨⟨-, -, hself⟩, -, -, hnodup, -⟩ := Outline.nodup_ids_cons.1 hids
    rw [Code.declared_append]
    refine ((lowers_of_lower hkind hlower).tidy.ownedBy.append (ihRest hnodup) fun x hx => ?_).mono
      ?_
    · rw [mem_singleton.1 hx]
      exact hself
    · intro x hx
      simp only [mem_append, mem_singleton] at hx
      rcases hx with hx | hx <;> simp [hx]

/-! ## The loops of a walk -/

/-- The induction variable of a range-for. -/
def counter? (s : Stmt) : Option Ident :=
  match s.kind with
  | .rangeFor .. => some (.counter s.id)
  | _ => none

theorem counter?_of_childBlocks (h : s.kind.childBlocks = []) : counter? s = none := by
  unfold counter?
  split
  · rename_i hkind
    rw [hkind] at h
    cases h
  · rfl

/-- **The counting loops of a walk are those of the range-fors walked.** -/
theorem Walks.headers_eq (h : Walks ctx st o st' code) (ho : o.Owned) :
    code.headers.map LoopHeader.counter = o.stmts.filterMap counter? := by
  induction h with
  | nil => rfl
  | branch hkind _ _ hsecond _ ihFirst ihSecond ihRest =>
    obtain ⟨-, -, hfirst, hsecond', hrest⟩ := ho
    rw [(branchCode_declared hsecond.done_of_isEmpty).2]
    simp [Outline.stmts, ihFirst hfirst, ihSecond hsecond', ihRest hrest, counter?, hkind]
  | loop hkind _ _ ihFirst ihRest =>
    obtain ⟨-, hnil, hfirst, -, hrest⟩ := ho
    rw [hnil (by rw [hkind]; exact Nat.le_refl 1)]
    simp [Code.headers, Outline.stmts, ihFirst hfirst, ihRest hrest, counter?, hkind]
  | count hkind _ _ _ ihFirst ihRest =>
    obtain ⟨-, hnil, hfirst, -, hrest⟩ := ho
    rw [hnil (by rw [hkind]; exact Nat.le_refl 1)]
    simp [Code.headers, Outline.stmts, ihFirst hfirst, ihRest hrest, counter?, hkind, serialLoop]
  | leaf hkind hlower _ _ ihRest =>
    obtain ⟨hfirst, hsecond, -, -, hrest⟩ := ho
    rw [hfirst (by rw [hkind]; rfl), hsecond (by rw [hkind]; exact Nat.zero_le 1),
      Code.headers_append, (lowers_of_lower hkind hlower).tidy.headers]
    simp [Outline.stmts, ihRest hrest, counter?_of_childBlocks hkind]

/-- The name of the induction variable of a loop around a statement. -/
def indexName (ctx : Context) (loop : StmtId) : Ident :=
  if ctx.gridLoop = some loop then .gridIndex else .counter loop

/-- The index of a loop is its variable. -/
theorem Lowers.index {loop : StmtId} (h : Lowers ctx values s l)
    (hkind : s.kind = .loopIndex loop) :
    l.value = some ⟨.ident (indexName ctx loop), .ofPrim .i32⟩ := by
  cases h with
  | gridIndex hkind' hgrid =>
    rw [hkind] at hkind'
    cases hkind'
    rw [indexName, if_pos hgrid]
    rfl
  | counter hkind' hgrid =>
    rw [hkind] at hkind'
    cases hkind'
    rw [indexName, if_neg hgrid]
    rfl
  | _ =>
    rw [hkind] at *
    contradiction

/-- **An index of a loop stands for its induction variable**, until the end of the walk. -/
theorem Walks.index (h : Walks ctx st o st' code) (ho : o.Owned) (hids : o.ids.Nodup)
    {loop : StmtId} (hs : s ∈ o.stmts) (hkind : s.kind = .loopIndex loop) :
    st'.values.lookup s.id = some ⟨.ident (indexName ctx loop), .ofPrim .i32⟩ := by
  refine h.along (P := fun st walked => ∀ t ∈ walked, t.kind = .loopIndex loop →
      st.values.lookup t.id = some ⟨.ident (indexName ctx loop), .ofPrim .i32⟩) ho
    (fun {_ walked u} _ hblocks hst t ht hk => ?_)
    (fun {_ _ walked u _} hu hblocks hlower happly hst t ht hk => ?_) (by simp) s hs hkind
  · rcases mem_append.1 ht with ht | ht
    · exact hst t ht hk
    · rw [← mem_singleton.1 ht, hk] at hblocks
      exact absurd rfl hblocks
  · -- no statement is walked twice, so the entries from before stay
    have hnodup := hids.sublist (hu.sublist.map Stmt.id)
    rw [map_append, nodup_append] at hnodup
    rcases mem_append.1 ht with ht | ht
    · rw [apply_lookup happly]
      · exact hst t ht hk
      · exact hnodup.2.2 t.id (mem_map_of_mem ht) u.id (by simp)
    · obtain rfl := mem_singleton.1 ht
      rw [(apply_values happly).1, (lowers_of_lower hblocks hlower).index hk]
      simp

/-! ## The names of values -/

/-- Every value is spelled with names that stand for values. -/
def Values.StandIns (values : Values) : Prop :=
  ∀ x v, values.lookup x = some v → ∀ n ∈ v.expr.names, n.standsIn = true

theorem Values.StandIns.value (hvalues : values.StandIns) {user : StmtId} {v : Value}
    (h : ctx.value values user x = .ok v) : ∀ n ∈ v.expr.names, n.standsIn = true := by
  rcases value_eq_ok.1 h with h | ⟨-, c, -, rfl⟩
  · exact hvalues x v h
  · simp

theorem apply_standIns {id : StmtId} (hst : st.values.StandIns) (hl : Lowers ctx values s l)
    (h : st.apply id l = .ok st') : st'.values.StandIns := by
  intro x w hw
  rw [(apply_values h).1] at hw
  cases hv : l.value with
  | none =>
    rw [hv] at hw
    exact hst x w hw
  | some v =>
    rw [hv, Option.elim_some, lookup_cons] at hw
    split at hw
    · cases hw
      exact (hl.named hv).standsIn
    · exact hst x w hw

/-- **A walk only hands on values spelled with names that stand for values.** -/
theorem Walks.standIns (h : Walks ctx st o st' code) (hst : st.values.StandIns) :
    st'.values.StandIns :=
  h.keeps (P := fun st => st.values.StandIns)
    (fun _ hst hl happly => apply_standIns hst hl happly) hst

end WgslKernel.Codegen
