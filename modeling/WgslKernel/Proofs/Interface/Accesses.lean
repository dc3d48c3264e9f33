import WgslKernel.Proofs.Interface.Members
import WgslKernel.Proofs.Typing.Kernels

/-!
# Accesses to the stage interface

`Code.Within L` says that code touches the two stage structures only by taking members of the layout
`L` from them.  What is generated for a graphics stage is within its layout.  Most statements do not
touch the interface at all, which follows from what is known about scopes.
-/

namespace WgslKernel

open List

/-! ## Code that takes members only -/

/-- The names of the two stage structures. -/
def Name.isStage : Name → Bool
  | ident .stageInput | ident .stageOutput => true
  | _ => false

/-- The stage structures only occur where a member of the layout is taken from them. -/
inductive Expr.Within (L : StageLayout) : Expr → Prop where
  | ident {n : Ident} (hn : (Name.ident n).isStage = false) : Within L (.ident n)
  | lit (l : Literal) : Within L (.lit l)
  | neg {e : Expr} (he : Within L e) : Within L (.neg e)
  | bitNot {e : Expr} (he : Within L e) : Within L (.bitNot e)
  | binary (op : Operator) {a b : Expr} (ha : Within L a) (hb : Within L b) :
    Within L (.binary op a b)
  | paren {e : Expr} (he : Within L e) : Within L (.paren e)
  | call (callee : Callee) {args : List Expr} (hargs : ∀ e ∈ args, Within L e) :
    Within L (.call callee args)
  | select {e : Expr} (selector : Selector) (he : Within L e) : Within L (.select e selector)
  | input {m : StageMember} (hm : m ∈ L.inputs) : Within L (.input m.name)
  | output {m : StageMember} (hm : m ∈ L.outputs) : Within L (.output m.name)
  | index {e i : Expr} (he : Within L e) (hi : Within L i) : Within L (.index e i)
  | address {e : Expr} (he : Within L e) : Within L (.address e)

/-- A line within the layout. -/
def Line.Within (L : StageLayout) : Line → Prop
  | letBind n _ e => (Name.ident n).isStage = false ∧ e.Within L
  | declare n _ value => (Name.ident n).isStage = false ∧ ∀ e ∈ value, e.Within L
  | assign target value => target.Within L ∧ value.Within L
  | perform e => e.Within L
  | exitLoop | nextIteration | discard => True

/-- The head of a loop within the layout. -/
structure LoopHeader.Within (L : StageLayout) (h : LoopHeader) : Prop where
  counter : (Name.ident h.counter).isStage = false
  start : h.start.Within L
  stop : h.stop.Within L
  step : h.step.Within L

/-- Code within the layout. -/
def Code.Within (L : StageLayout) : Code → Prop
  | done => True
  | line l rest => l.Within L ∧ rest.Within L
  | branch c yes rest => c.Within L ∧ yes.Within L ∧ rest.Within L
  | branchElse c yes no rest => c.Within L ∧ yes.Within L ∧ no.Within L ∧ rest.Within L
  | loop body rest => body.Within L ∧ rest.Within L
  | countLoop h body rest => h.Within L ∧ body.Within L ∧ rest.Within L

variable {L : StageLayout}

theorem Code.within_append {c d : Code} : (c ++ d).Within L ↔ c.Within L ∧ d.Within L := by
  induction c <;> simp_all [Within, and_assoc]

/-! ## Code without stage structures -/

/-- None of the names is that of a stage structure. -/
def Stageless (names : List Name) : Prop := ∀ n ∈ names, n.isStage = false

@[simp] theorem stageless_nil : Stageless [] := nofun

@[simp] theorem stageless_append {a b : List Name} :
    Stageless (a ++ b) ↔ Stageless a ∧ Stageless b := forall_mem_append

@[simp] theorem stageless_cons {n : Name} {names : List Name} :
    Stageless (n :: names) ↔ n.isStage = false ∧ Stageless names := forall_mem_cons

namespace Expr

mutual

/-- Without stage names an expression is within any layout. -/
theorem within_of_names : ∀ e : Expr, Stageless e.names → e.Within L
  | .ident _, h => .ident (h _ mem_cons_self)
  | .lit l, _ => .lit l
  | .neg e, h => .neg (within_of_names e h)
  | .bitNot e, h => .bitNot (within_of_names e h)
  | .binary op a b, h =>
    .binary op (within_of_names a (stageless_append.1 h).1)
      (within_of_names b (stageless_append.1 h).2)
  | .paren e, h => .paren (within_of_names e h)
  | .call callee args, h => .call callee (within_of_namesOf args (stageless_append.1 h).2)
  | .select e selector, h => .select selector (within_of_names e h)
  | .index e i, h =>
    .index (within_of_names e (stageless_append.1 h).1) (within_of_names i (stageless_append.1 h).2)
  | .address e, h => .address (within_of_names e h)

theorem within_of_namesOf : ∀ es : List Expr, Stageless (namesOf es) → ∀ e ∈ es, e.Within L
  | [], _ => nofun
  | e :: es, h =>
    forall_mem_cons.2 ⟨within_of_names e (stageless_append.1 h).1,
      within_of_namesOf es (stageless_append.1 h).2⟩

end

end Expr

theorem Line.within_of_names {l : Line} (hnames : Stageless l.names) (hbinds : Stageless l.binds) :
    l.Within L := by
  cases l with
  | letBind n type e => exact ⟨hbinds _ mem_cons_self, Expr.within_of_names _ hnames⟩
  | declare n type value =>
    refine ⟨hbinds _ mem_cons_self, fun e he => ?_⟩
    cases Option.mem_def.1 he
    exact Expr.within_of_names _ hnames
  | assign target value =>
    obtain ⟨htarget, hvalue⟩ := stageless_append.1 hnames
    exact ⟨Expr.within_of_names _ htarget, Expr.within_of_names _ hvalue⟩
  | perform e => exact Expr.within_of_names _ hnames
  | exitLoop | nextIteration | discard => trivial

theorem Stageless.of_subset {a b : List Name} (h : Stageless b) (hsub : a ⊆ b) : Stageless a :=
  fun n hn => h n (hsub hn)

/-- **Code does not touch the interface** if the stage structures are not declared. -/
theorem Code.within_of_scoped {c : Code} {scope : List Name} (hscope : Stageless scope)
    (hdeclared : Stageless c.declared) (h : c.Scoped scope) : c.Within L := by
  induction c generalizing scope with
  | done => trivial
  | line l rest ih =>
    obtain ⟨hl, hrest⟩ := h
    obtain ⟨hbinds, hdeclared⟩ := stageless_append.1 hdeclared
    exact ⟨Line.within_of_names (hscope.of_subset hl) hbinds,
      ih (stageless_append.2 ⟨hbinds, hscope⟩) hdeclared hrest⟩
  | branch cond yes rest ihYes ihRest =>
    obtain ⟨hcond, hyes, hrest⟩ := h
    obtain ⟨hdyes, hdrest⟩ := stageless_append.1 hdeclared
    exact ⟨Expr.within_of_names _ (hscope.of_subset hcond), ihYes hscope hdyes hyes,
      ihRest hscope hdrest hrest⟩
  | branchElse cond yes no rest ihYes ihNo ihRest =>
    obtain ⟨hcond, hyes, hno, hrest⟩ := h
    obtain ⟨hdyes, hdeclared⟩ := stageless_append.1 hdeclared
    obtain ⟨hdno, hdrest⟩ := stageless_append.1 hdeclared
    exact ⟨Expr.within_of_names _ (hscope.of_subset hcond), ihYes hscope hdyes hyes,
      ihNo hscope hdno hno, ihRest hscope hdrest hrest⟩
  | loop body rest ihBody ihRest =>
    obtain ⟨hbody, hrest⟩ := h
    obtain ⟨hdbody, hdrest⟩ := stageless_append.1 hdeclared
    exact ⟨ihBody hscope hdbody hbody, ihRest hscope hdrest hrest⟩
  | countLoop header body rest ihBody ihRest =>
    obtain ⟨hheader, hbody, hrest⟩ := h
    obtain ⟨hcounter, hdeclared⟩ := stageless_cons.1 hdeclared
    obtain ⟨hdbody, hdrest⟩ := stageless_append.1 hdeclared
    have hnames := hscope.of_subset hheader
    simp only [LoopHeader.names, stageless_append] at hnames
    exact ⟨⟨hcounter, Expr.within_of_names _ hnames.1.1, Expr.within_of_names _ hnames.1.2,
      Expr.within_of_names _ hnames.2⟩, ihBody (stageless_cons.2 ⟨hcounter, hscope⟩) hdbody hbody,
      ihRest hscope hdrest hrest⟩

namespace Codegen

variable {ctx : Context} {st st' : State} {values : Values} {s : Stmt} {l : Lowering} {o : Offload}
  {d : Draft}

/-- No value names a stage structure. -/
def Values.Stageless (values : Values) : Prop :=
  ∀ x v, values.lookup x = some v → WgslKernel.Stageless v.expr.names

theorem Values.StandIns.stageless (h : values.StandIns) : Values.Stageless values := by
  intro x v hv n hn
  have hstands := h x v hv n hn
  cases n with
  | ident n => cases n <;> first | rfl | cases hstands
  | _ => cases hstands

theorem value_stageless {user x : StmtId} {v : Value} (hvalues : Values.Stageless values)
    (h : ctx.value values user x = .ok v) : Stageless v.expr.names := by
  rcases value_eq_ok.1 h with h | ⟨-, c, -, rfl⟩
  · exact hvalues x v h
  · simp

/-! ## Statements -/

/-- The names a statement finds: its operands, its resources and the random functions. -/
def namesAt (ctx : Context) (values : Values) (s : Stmt) (l : Lowering) : List Name :=
  (s.kind.operands.flatMap fun x => ((ctx.value values s.id x).toOption.map fun v =>
      v.expr.names).getD []) ++
    l.uses.map (fun u => .ident (.resource u.resource)) ++ [.helper .randU32, .helper .randF32]

/-- What a statement finds has no stage name. -/
theorem stageless_namesAt (hvalues : Values.Stageless values) :
    Stageless (namesAt ctx values s l) := by
  rw [namesAt, stageless_append, stageless_append]
  refine ⟨⟨fun n hn => ?_, fun n hn => ?_⟩, by simp [Name.isStage]⟩
  · obtain ⟨x, -, hn⟩ := mem_flatMap.1 hn
    cases hv : ctx.value values s.id x with
    | error e => simp [hv, Except.toOption] at hn
    | ok v =>
      simp only [hv, Except.toOption, Option.map_some, Option.getD_some] at hn
      exact value_stageless hvalues hv n hn
  · obtain ⟨u, -, rfl⟩ := mem_map.1 hn
    rfl

theorem names_subset_namesAt {x : StmtId} {v : Value} (hx : x ∈ s.kind.operands)
    (hv : ctx.value values s.id x = .ok v) : v.expr.names ⊆ namesAt ctx values s l := by
  intro n hn
  refine mem_append_left _ (mem_append_left _ (mem_flatMap.2 ⟨x, hx, ?_⟩))
  simpa [hv, Except.toOption] using hn

/-- A statement that asks for no member and sets no position does not touch the interface. -/
theorem Lowers.within_of_unasked (h : Lowers ctx values s l) (hvalues : Values.Stageless values)
    (hposition : ∀ q, s.kind ≠ .builtinOutput (.position q)) (hinputs : l.inputs = [])
    (houtputs : l.outputs = []) : l.code.Within L := by
  refine Code.within_of_scoped (stageless_namesAt hvalues) (fun n hn => ?_)
    (h.scoped ⟨fun x hx v hv => names_subset_namesAt (l := l) hx hv, fun n hn => ?_,
      fun q hq => absurd hq (hposition q)⟩)
  · have howner := h.tidy.owned n hn
    cases n with
    | ident n => cases n <;> first | rfl | cases howner
    | _ => rfl
  · cases n with
    | ident n =>
      cases n with
      | resource r =>
        obtain ⟨u, hu, rfl⟩ := hn
        exact mem_append_left _ (mem_append_right _ (mem_map.2 ⟨u, hu, rfl⟩))
      | stageInput => exact absurd hinputs hn
      | stageOutput => exact absurd houtputs hn
      | _ => cases hn
    | helper f =>
      refine mem_append_right _ ?_
      rcases Func.eq_of_isHelper hn.1 with rfl | rfl <;> simp
    | _ => cases hn

/-- **A statement takes members that it has asked for**, from the two structures. -/
theorem Lowers.within (h : Lowers ctx values s l) (hvalues : Values.Stageless values)
    (hinputs : ∀ m ∈ l.inputs, m ∈ L.inputs) (houtputs : ∀ m ∈ l.outputs, m ∈ L.outputs)
    (hposition : ctx.stage = .vertex → .position ∈ L.outputs) : l.code.Within L := by
  have hunasked := h.within_of_unasked (L := L) hvalues
  have hoperands : ∀ x ∈ s.kind.operands, ∀ v, ctx.value values s.id x = .ok v →
      v.expr.names ⊆ namesAt ctx values s l := fun x hx v hv => names_subset_namesAt hx hv
  have hstageless : Stageless (namesAt ctx values s l) := stageless_namesAt hvalues
  have hline {line : Line} (hline : line.Within L) : (Code.line line .done).Within L :=
    ⟨hline, trivial⟩
  cases h with
  | vertexInput | fragmentInput | fragCoord =>
    have hinput := Expr.Within.input (hinputs _ mem_cons_self)
    exact hline ⟨rfl, hinput⟩
  | vertexIndex | instanceIndex =>
    have hinput := Expr.Within.input (hinputs _ mem_cons_self)
    exact hline ⟨rfl, .call _ (forall_mem_singleton.2 hinput)⟩
  | vertexOutput _ _ hv =>
    have houtput := Expr.Within.output (houtputs _ mem_cons_self)
    exact hline ⟨houtput, Expr.within_of_names _ (value_stageless hvalues hv)⟩
  | position hkind hstage he =>
    rw [hkind] at hoperands
    have houtput := Expr.Within.output (hposition hstage)
    have he := floatVector_names hoperands he
    exact hline ⟨houtput, Expr.within_of_names _ (hstageless.of_subset he)⟩
  | color hkind _ he =>
    rw [hkind] at hoperands
    have houtput := Expr.Within.output (houtputs _ mem_cons_self)
    have he := floatVector_names hoperands he
    exact hline ⟨houtput, Expr.within_of_names _ (hstageless.of_subset he)⟩
  | fragDepth hkind _ he =>
    rw [hkind] at hoperands
    have houtput := Expr.Within.output (houtputs _ mem_cons_self)
    have he := floatOperand_names (hoperands _ mem_cons_self) he
    exact hline ⟨houtput, Expr.within_of_names _ (hstageless.of_subset he)⟩
  | rand hkind he =>
    refine hline ⟨rfl, Expr.within_of_names _ ?_⟩
    rcases he with rfl | rfl <;> simp [Expr.names_func, Func.isHelper, Expr.namesOf, Name.isStage]
  | sample hkind _ hl | sampleLod hkind _ _ hl =>
    obtain ⟨use, e, type, -, -, rfl⟩ := sampleTexture_eq_ok hl
    exact hunasked (by simp [hkind]) rfl rfl
  | const hkind | gridIndex hkind | counter hkind | argLoad hkind | unary hkind | binary hkind
  | exitLoop hkind | nextIteration hkind | alloca hkind | localLoad hkind | localStore hkind
  | globalPtr hkind | globalLoad hkind | globalStore hkind | temporary hkind | temporaryLoad hkind
  | temporaryStore hkind | atomicInt hkind | atomicFloat hkind | atomicLoad hkind
  | atomicStore hkind | derivative hkind | discard hkind | textureLoad hkind | textureStore hkind
  | extract hkind | ret hkind => exact hunasked (by simp [hkind]) rfl rfl

/-! ## Walks -/

theorem branchCondition_within {cond : StmtId} {c : Expr} (hvalues : Values.Stageless values)
    (h : branchCondition ctx values s.id cond = .ok c) : c.Within L := by
  obtain ⟨v, hv, h⟩ := bind_eq_ok.1 h
  cases h
  refine Expr.within_of_names _ ?_
  simpa using value_stageless hvalues (scalar_eq_ok.1 hv).1

theorem loopBound_within {bound : RangeBound} {stop : Expr} (hvalues : Values.Stageless values)
    (h : loopBound ctx values s.id bound = .ok stop) : stop.Within L := by
  rcases loopBound_eq_ok h with ⟨f, n, -, -, rfl⟩ | ⟨x, v, -, hv, -, rfl⟩
  · exact .lit _
  · exact Expr.within_of_names _ (value_stageless hvalues hv)

/-- What has been collected for the interface is in a layout. -/
structure State.Shows (st : State) (L : StageLayout) : Prop where
  inputs : ∀ m, st.Has (.input m) → m ∈ L.inputs
  outputs : ∀ m, st.Has (.output m) → m ∈ L.outputs

/-- Members that were collected stay. -/
theorem Walks.shows {inner : Outline} {code : Code} (h : Walks ctx st inner st' code)
    (hL : st'.Shows L) : st.Shows L :=
  ⟨fun m hm => hL.inputs m (h.has hm), fun m hm => hL.outputs m (h.has hm)⟩

/-- **The code of a walk takes members that have been collected by its end.** -/
theorem Walks.within {inner : Outline} {code : Code} (h : Walks ctx st inner st' code)
    (hst : st.values.StandIns) (hL : st'.Shows L)
    (hposition : ctx.stage = .vertex → .position ∈ L.outputs) : code.Within L := by
  induction h with
  | nil => trivial
  | @branch _ _ _ _ _ _ second _ _ _ _ _ _ _ _ _ hcond hfirst hsecond hrest ihFirst ihSecond
      ihRest =>
    have hst₁ := hfirst.standIns hst
    have hst₂ := hsecond.standIns hst₁
    have hL₂ := hrest.shows hL
    have hc := branchCondition_within (L := L) hst.stageless hcond
    have hyes := ihFirst hst (hsecond.shows hL₂)
    have hno := ihSecond hst₁ hL₂
    have htail := ihRest hst₂ hL
    unfold branchCode
    split
    · exact ⟨hc, hyes, htail⟩
    · exact ⟨hc, hyes, hno, htail⟩
  | loop _ hfirst hrest ihFirst ihRest =>
    exact ⟨ihFirst hst (hrest.shows hL), ihRest (hfirst.standIns hst) hL⟩
  | count _ hstop hfirst hrest ihFirst ihRest =>
    exact ⟨⟨rfl, .lit _, loopBound_within hst.stageless hstop, .lit _⟩,
      ihFirst hst (hrest.shows hL), ihRest (hfirst.standIns hst) hL⟩
  | leaf hkind hlower happly hrest ihRest =>
    have hl := lowers_of_lower hkind hlower
    have hL₁ := hrest.shows hL
    exact Code.within_append.2 ⟨hl.within hst.stageless
        (fun m hm => hL₁.inputs m (apply_has happly (.inr hm)))
        (fun m hm => hL₁.outputs m (apply_has happly (.inr hm))) hposition,
      ihRest (apply_standIns hst hl happly) hL⟩

/-- The lines that seed random numbers read members that have been collected. -/
theorem seedLines_within (hgraphics : ctx.stage ≠ .compute)
    (hinputs : ∀ m ∈ randInputs ctx.stage, m ∈ L.inputs) :
    (Code.ofLines (seedLines ctx)).Within L := by
  have hid : (randId ctx.stage).Within L := by
    cases hstage : ctx.stage with
    | compute => exact absurd hstage hgraphics
    | vertex =>
      rw [hstage] at hinputs
      exact Expr.Within.input (hinputs .vertexIndex mem_cons_self)
    | fragment =>
      rw [hstage] at hinputs
      have hcoord := Expr.Within.input (hinputs .fragCoord mem_cons_self)
      have hpart (sel : Selector) :
          (Expr.convert ⟨.u32, 1⟩ (.select (.input .fragCoord) sel)).Within L :=
        .call _ (forall_mem_singleton.2 (.select sel hcoord))
      exact .binary _ (hpart .x) (.binary _ (hpart .y) (.lit _))
  have hline {e e' : Expr} (he : Stageless e.names) (he' : Stageless e'.names) :
      (Line.assign e e').Within L := ⟨Expr.within_of_names _ he, Expr.within_of_names _ he'⟩
  refine ⟨⟨rfl, hid⟩, hline ?_ ?_, hline ?_ ?_, hline ?_ ?_, hline ?_ ?_, trivial⟩ <;>
    simp [Name.isStage]

/-- **A graphics stage takes members of its layout**, in its body and in what stands ahead of it. -/
theorem draft_within {bindings : BindingMap} (ho : o ∈ ctx.module.groups)
    (hstage : ctx.stage = o.kind.stage) (hgraphics : ctx.stage ≠ .compute)
    (h : draft ctx { bindings } o = .ok d) :
    (assemble ctx o.kind d).shader.prologue.Within ⟨d.state.inputs, d.state.outputs⟩ ∧
      d.body.Within ⟨d.state.inputs, d.state.outputs⟩ := by
  have hposition (hvertex : ctx.stage = .vertex) := draft_position ho hstage hvertex h
  obtain ⟨body, st', code, hwalks, rfl⟩ := draft_stage ho hstage hgraphics h
  have hshows : st'.Shows ⟨st'.inputs, st'.outputs⟩ :=
    ⟨fun m hm => mem_of_find?_eq_some hm, fun m hm => mem_of_find?_eq_some hm⟩
  refine ⟨?_, hwalks.within nofun hshows fun hvertex => hshows.outputs _ (hposition hvertex)⟩
  show (Code.ofLines ([] ++ if st'.random then seedLines ctx else [])).Within _
  split
  · rename_i hrandom
    have hinputs := hwalks.randInputs (fun hstart => by cases hstart) hrandom
    exact seedLines_within hgraphics fun m hm => hshows.inputs m (hinputs m hm)
  · trivial

end Codegen

end WgslKernel
