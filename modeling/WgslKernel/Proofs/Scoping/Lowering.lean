import WgslKernel.Proofs.Scoping.Expressions

/-!
# Scopes of lowered statements

The code of a statement is scoped if its operands are, and if what it asks for itself is declared.
What it declares is its own.
-/

namespace WgslKernel

open List

/-- The statement that a name is made for. -/
def Name.owner? : Name → Option StmtId
  | ident n => n.owner?
  | _ => none

/-- The names that stand for values: temporaries, counters and the index of the parallel loop. -/
def Name.standsIn : Name → Bool
  | ident (.temp _) | ident (.counter _) | ident .gridIndex => true
  | _ => false

namespace Codegen

open WgslKernel.Expr (namesOf names_func namesOf_subset)

variable {ctx : Context} {values : Values} {s : Stmt} {l : Lowering} {scope : List Name}

/-! ## What a statement asks for -/

/-- The names a statement needs besides those of its operands. -/
def Lowering.Asks (l : Lowering) : Name → Prop
  | .ident (.resource r) => ∃ u ∈ l.uses, u.resource = r
  | .ident .stageInput => l.inputs ≠ []
  | .ident .stageOutput => l.outputs ≠ []
  | .helper f => f.isHelper = true ∧ l.random = true
  | _ => False

/-- What a statement asks for and its operands name is in scope, and the position of a vertex. -/
structure Supplied (ctx : Context) (values : Values) (s : Stmt) (l : Lowering)
    (scope : List Name) : Prop where
  operands : ∀ x ∈ s.kind.operands, ∀ v, ctx.value values s.id x = .ok v → v.expr.names ⊆ scope
  asks : ∀ n, l.Asks n → n ∈ scope
  position : ∀ q, s.kind = .builtinOutput (.position q) → ctx.stage = .vertex →
    .ident .stageOutput ∈ scope

theorem Supplied.resource (h : Supplied ctx values s l scope) {u : Use} (hu : u ∈ l.uses) :
    .ident (.resource u.resource) ∈ scope := h.asks (.ident (.resource u.resource)) ⟨u, hu, rfl⟩

/-- A word of a buffer that is used. -/
theorem Supplied.word (h : Supplied ctx values s l scope) {u : Use} (hu : u ∈ l.uses) {e : Expr}
    (he : e.names ⊆ scope) : (Expr.word u.resource e).names ⊆ scope :=
  cons_subset.2 ⟨h.resource hu, he⟩

/-! ## Forms of code -/

section Forms

variable {id : StmtId} {e : Expr}

theorem letBind_scoped {n : Ident} {type : Option ShaderType} (he : e.names ⊆ scope) :
    (Code.done ++ Code.line (.letBind n type e) .done : Code).Scoped scope := ⟨he, trivial⟩

theorem line_scoped {line : Line} (h : line.names ⊆ scope) :
    (Code.line line .done).Scoped scope := ⟨h, trivial⟩

theorem exchangeLoop_scoped {op : AtomicOp} {target operand : Expr} (ht : target.names ⊆ scope)
    (ho : operand.names ⊆ scope) : (exchangeLoop id op target operand).Scoped scope := by
  have hcons (n : Name) {es : List Name} (h : es ⊆ scope) : es ⊆ n :: scope :=
    List.Subset.trans h (subset_cons_self n scope)
  have hcombine {a b : Expr} {scope : List Name} (ha : a.names ⊆ scope) (hb : b.names ⊆ scope) :
      (combine op a b).names ⊆ scope := by
    cases op <;> simp [combine, names_func, Func.isHelper, namesOf, ha, hb]
  simp [exchangeLoop, Code.Scoped, Line.names, Line.binds, names_func, Func.isHelper, namesOf, ht,
    hcons, ho, hcombine]

theorem returnLines_scoped {words : List Expr} (hrets : .ident (.resource .rets) ∈ scope)
    (h : ∀ e ∈ words, e.names ⊆ scope) (k : Nat) :
    (Code.ofLines (returnLines k words)).Scoped scope := by
  induction words generalizing k with
  | nil => trivial
  | cons e es ih =>
    rw [forall_mem_cons] at h
    exact ⟨by simp [Line.names, hrets, h.1], ih h.2 (k + 1)⟩

theorem sampleTexture_scoped {tex : Texture} {cs : List Value} {level : Option Value}
    (h : sampleTexture ctx id tex cs level = .ok l) (hcs : ∀ v ∈ cs, v.expr.names ⊆ scope)
    (hlevel : ∀ v, level = some v → v.expr.names ⊆ scope)
    (hasks : ∀ u ∈ l.uses, .ident (.resource u.resource) ∈ scope) : l.code.Scoped scope := by
  obtain ⟨use, huse, h⟩ := bind_eq_ok.1 h
  obtain ⟨type, -, rfl⟩ := define_eq_ok.1 h
  have htexture : .ident (.resource (.texture tex.id)) ∈ scope :=
    useTexture_resource huse ▸ hasks use mem_cons_self
  have hsampler : .ident (.resource (.sampler tex.id)) ∈ scope :=
    hasks ⟨.sampler tex.id, .handle .sampler⟩ (mem_cons_of_mem _ mem_cons_self)
  have hcoords := vectorOf_names (p := .f32) hcs
  refine letBind_scoped ?_
  cases level with
  | some v =>
    simp [names_func, Func.isHelper, namesOf, htexture, hsampler, hcoords, hlevel v rfl]
  | none =>
    dsimp only
    split <;> simp [names_func, Func.isHelper, namesOf, htexture, hsampler, hcoords]

end Forms

/-- **The code of a statement is scoped**, if its operands are and what it asks for is declared. -/
theorem Lowers.scoped (h : Lowers ctx values s l) (hs : Supplied ctx values s l scope) :
    l.code.Scoped scope := by
  have hvalues := hs.operands
  have hsecond {x y : StmtId} : y ∈ [x, y] := mem_cons_of_mem _ mem_cons_self
  cases h with
  | const | gridIndex | counter | temporary => trivial
  | argLoad =>
    refine letBind_scoped ?_
    rw [names_fromWord]
    exact hs.word mem_cons_self (nil_subset scope)
  | rand hkind he =>
    have hhelper {f : Func} (hf : f.isHelper = true) : .helper f ∈ scope :=
      hs.asks (.helper f) ⟨hf, rfl⟩
    refine letBind_scoped ?_
    rcases he with rfl | rfl
    · simpa [names_func, Func.isHelper, namesOf] using hhelper (f := .randF32) rfl
    · simpa [names_func, Func.isHelper, namesOf] using hhelper (f := .randU32) rfl
  | unary hkind hv _ he =>
    rw [hkind] at hvalues
    exact letBind_scoped (unaryExpr_names he (hvalues _ mem_cons_self _ hv))
  | binary hkind ha hb _ _ he =>
    rw [hkind] at hvalues
    obtain ⟨hbefore, he, -⟩ := binaryExpr_scoped he (hvalues _ mem_cons_self _ ha)
      (hvalues _ hsecond _ hb)
    exact Code.scoped_append.2 ⟨hbefore, he, trivial⟩
  | exitLoop | nextIteration | discard => exact line_scoped (by simp [Line.names])
  | alloca => exact ⟨by simp [Line.names], trivial⟩
  | localLoad hkind hvar =>
    rw [hkind] at hvalues
    exact letBind_scoped (hvalues _ mem_cons_self _ hvar)
  | localStore hkind hvar hv =>
    rw [hkind] at hvalues
    have hvar := hvalues _ mem_cons_self _ hvar
    have hv := hvalues _ hsecond _ hv
    exact line_scoped (by simp [Line.names, hvar, hv])
  | globalPtr hkind _ hterms =>
    rw [hkind] at hvalues
    exact letBind_scoped (sumTerms_names (indexTerms_names hvalues hterms))
  | globalLoad hkind _ hindex =>
    rw [hkind] at hvalues
    refine letBind_scoped ?_
    rw [names_fromWord]
    exact hs.word mem_cons_self (hvalues _ mem_cons_self _ hindex)
  | globalStore hkind _ _ hv _ hindex =>
    rw [hkind] at hvalues
    refine line_scoped (append_subset.2 ⟨?_, ?_⟩)
    · exact hs.word mem_cons_self (hvalues _ mem_cons_self _ hindex)
    · rw [names_toWord]
      exact hvalues _ hsecond _ hv
  | temporaryLoad hkind hslot =>
    rw [hkind] at hvalues
    refine letBind_scoped ?_
    rw [names_fromWord]
    exact hs.word mem_cons_self (hvalues _ mem_cons_self _ (temporarySlot_eq_ok hslot))
  | temporaryStore hkind _ hslot hv =>
    rw [hkind] at hvalues
    refine line_scoped (append_subset.2 ⟨?_, ?_⟩)
    · exact hs.word mem_cons_self (hvalues _ mem_cons_self _ (temporarySlot_eq_ok hslot))
    · rw [names_toWord]
      exact hvalues _ hsecond _ hv
  | @atomicInt op _ _ _ _ _ hkind htarget hv =>
    rw [hkind] at hvalues
    obtain ⟨v, hptr, hword, -⟩ := atomicTarget_eq_ok htarget
    have hplace := hs.word mem_cons_self (hvalues _ mem_cons_self _ hptr)
    rw [← hword] at hplace
    have hv := hvalues _ hsecond _ hv
    refine letBind_scoped ?_
    cases op <;> simp [atomicFunc, names_func, Func.isHelper, namesOf, hplace, hv]
  | atomicFloat hkind htarget hv =>
    rw [hkind] at hvalues
    obtain ⟨v, hptr, hword, -⟩ := atomicTarget_eq_ok htarget
    have hplace := hs.word mem_cons_self (hvalues _ mem_cons_self _ hptr)
    rw [← hword] at hplace
    exact Code.scoped_append.2 ⟨exchangeLoop_scoped hplace (hvalues _ hsecond _ hv),
      by simp [exchangeLoop, Code.binds, Line.binds, Line.names], trivial⟩
  | atomicLoad hkind htarget =>
    rw [hkind] at hvalues
    obtain ⟨v, hptr, hword, -⟩ := atomicTarget_eq_ok htarget
    have hplace := hs.word mem_cons_self (hvalues _ mem_cons_self _ hptr)
    rw [← hword] at hplace
    exact letBind_scoped (by simp [names_func, Func.isHelper, namesOf, hplace])
  | atomicStore hkind htarget hv =>
    rw [hkind] at hvalues
    obtain ⟨v, hptr, hword, -⟩ := atomicTarget_eq_ok htarget
    have hplace := hs.word mem_cons_self (hvalues _ mem_cons_self _ hptr)
    rw [← hword] at hplace
    have hv := hvalues _ hsecond _ hv
    exact line_scoped (by simp [Line.names, names_func, Func.isHelper, namesOf, hplace, hv])
  | vertexInput | fragmentInput | vertexIndex | instanceIndex | fragCoord =>
    have hinput := hs.asks (.ident .stageInput) (cons_ne_nil _ _)
    exact letBind_scoped (by simpa using hinput)
  | vertexOutput hkind _ hv =>
    rw [hkind] at hvalues
    have houtput := hs.asks (.ident .stageOutput) (cons_ne_nil _ _)
    exact line_scoped (by simp [Line.names, houtput, hvalues _ mem_cons_self _ hv])
  | position hkind hstage he =>
    rw [hkind] at hvalues
    have houtput := hs.position _ hkind hstage
    exact line_scoped (by simp [Line.names, houtput, floatVector_names hvalues he])
  | color hkind _ he =>
    rw [hkind] at hvalues
    have houtput := hs.asks (.ident .stageOutput) (cons_ne_nil _ _)
    exact line_scoped (by simp [Line.names, houtput, floatVector_names hvalues he])
  | fragDepth hkind _ he =>
    rw [hkind] at hvalues
    have houtput := hs.asks (.ident .stageOutput) (cons_ne_nil _ _)
    have he := floatOperand_names (hvalues _ mem_cons_self) he
    exact line_scoped (by simp [Line.names, houtput, he])
  | derivative hkind _ hv _ hf =>
    rw [hkind] at hvalues
    have hv := hvalues _ mem_cons_self _ hv
    refine letBind_scoped ?_
    rcases hf with rfl | rfl <;> simp [names_func, Func.isHelper, namesOf, hv]
  | sample hkind hcoords hl =>
    rw [hkind] at hvalues
    exact sampleTexture_scoped hl
      (scalars_names (fun x hx => hvalues x (mem_append_left _ hx)) hcoords)
      (fun v hv => by cases hv) (fun u hu => hs.resource hu)
  | sampleLod hkind hcoords hv hl =>
    rw [hkind] at hvalues
    refine sampleTexture_scoped hl
      (scalars_names (fun x hx => hvalues x (mem_append_left _ hx)) hcoords)
      (fun w hw => ?_) (fun u hu => hs.resource hu)
    cases hw
    exact hvalues _ (mem_append_right _ mem_cons_self) _ (scalar_eq_ok.1 hv).1
  | textureLoad hkind hcoords _ huse =>
    rw [hkind] at hvalues
    have hcs := scalars_names (fun x hx => hvalues x (mem_append_left _ hx)) hcoords
    have htexture := hs.resource mem_cons_self
    rw [useTexture_resource huse] at htexture
    exact letBind_scoped
      (by simp [names_func, Func.isHelper, namesOf, htexture, vectorOf_names hcs])
  | textureStore hkind hcoords _ he huse =>
    rw [hkind] at hvalues
    have hcs := scalars_names (fun x hx => hvalues x (mem_append_left _ hx)) hcoords
    have he := floatVector_names (fun x hx => hvalues x (mem_append_right _ hx)) he
    have htexture := hs.resource mem_cons_self
    rw [useStorageTexture_resource huse] at htexture
    exact line_scoped
      (by simp [Line.names, names_func, Func.isHelper, namesOf, htexture, vectorOf_names hcs, he])
  | extract hkind hv =>
    rw [hkind] at hvalues
    exact letBind_scoped (hvalues _ mem_cons_self _ hv)
  | ret hkind _ _ hwords =>
    rw [hkind] at hvalues
    exact returnLines_scoped (hs.resource mem_cons_self) (operandWords_names hvalues hwords) 0

/-! ## What a statement declares -/

/-- What a statement declares is its own, each once and not by a loop; resources are numbered. -/
structure Lowering.Tidy (id : StmtId) (l : Lowering) : Prop where
  owned : ∀ n ∈ l.code.declared, n.owner? = some id
  nodup : l.code.declared.Nodup
  headers : l.code.headers = []
  uses : ∀ u ∈ l.uses, u.resource.IsNumbered

/-- Nothing is declared. -/
theorem Lowering.tidy_of_nil {id : StmtId} (hdeclared : l.code.declared = [])
    (hheaders : l.code.headers = []) (huses : ∀ u ∈ l.uses, u.resource.IsNumbered) :
    l.Tidy id where
  owned n hn := by simp [hdeclared] at hn
  nodup := by simp [hdeclared]
  headers := hheaders
  uses := huses

/-- Only the temporary of the statement is declared. -/
theorem Lowering.tidy_of_temp {id : StmtId} (hdeclared : l.code.declared = [.ident (.temp id)])
    (hheaders : l.code.headers = []) (huses : ∀ u ∈ l.uses, u.resource.IsNumbered) :
    l.Tidy id where
  owned n hn := by
    rw [hdeclared, mem_singleton] at hn
    rw [hn]
    rfl
  nodup := by simp [hdeclared]
  headers := hheaders
  uses := huses

theorem returnLines_declared (words : List Expr) (k : Nat) :
    (Code.ofLines (returnLines k words)).declared = [] ∧
      (Code.ofLines (returnLines k words)).headers = [] := by
  induction words generalizing k with
  | nil => exact ⟨rfl, rfl⟩
  | cons e es ih => exact ih (k + 1)

/-- What a statement declares is tidy. -/
theorem Lowers.tidy (h : Lowers ctx values s l) : l.Tidy s.id := by
  cases h with
  | const | gridIndex | counter | temporary | exitLoop | nextIteration | localStore | vertexOutput
  | position | color | fragDepth | discard =>
    exact Lowering.tidy_of_nil rfl rfl (fun _ hu => absurd hu not_mem_nil)
  | globalStore | temporaryStore =>
    exact Lowering.tidy_of_nil rfl rfl (forall_mem_singleton.2 rfl)
  | unary | alloca | localLoad | globalPtr | vertexInput | fragmentInput | vertexIndex
  | instanceIndex | fragCoord | derivative | extract =>
    exact Lowering.tidy_of_temp rfl rfl (fun _ hu => absurd hu not_mem_nil)
  | argLoad | rand | globalLoad | temporaryLoad =>
    exact Lowering.tidy_of_temp rfl rfl (forall_mem_singleton.2 rfl)
  | atomicInt _ htarget | atomicLoad _ htarget =>
    obtain ⟨-, -, -, hnumbered⟩ := atomicTarget_eq_ok htarget
    exact Lowering.tidy_of_temp rfl rfl (forall_mem_singleton.2 hnumbered)
  | atomicStore _ htarget =>
    obtain ⟨-, -, -, hnumbered⟩ := atomicTarget_eq_ok htarget
    exact Lowering.tidy_of_nil rfl rfl (forall_mem_singleton.2 hnumbered)
  | textureLoad _ _ _ huse =>
    refine Lowering.tidy_of_temp rfl rfl (forall_mem_singleton.2 ?_)
    rw [useTexture_resource huse]
    rfl
  | textureStore _ _ _ _ huse =>
    refine Lowering.tidy_of_nil rfl rfl (forall_mem_singleton.2 ?_)
    rw [useStorageTexture_resource huse]
    rfl
  | sample _ _ hl | sampleLod _ _ _ hl =>
    obtain ⟨use, e, type, huse, -, rfl⟩ := sampleTexture_eq_ok hl
    refine Lowering.tidy_of_temp rfl rfl (forall_mem_cons.2 ⟨?_, forall_mem_singleton.2 rfl⟩)
    rw [useTexture_resource huse]
    rfl
  | ret _ _ _ _ =>
    obtain ⟨hdeclared, hheaders⟩ := returnLines_declared _ 0
    exact Lowering.tidy_of_nil hdeclared hheaders (forall_mem_singleton.2 rfl)
  | @atomicFloat op _ _ target v type _ htarget =>
    obtain ⟨-, -, -, hnumbered⟩ := atomicTarget_eq_ok htarget
    have hdeclared : (Lowering.bound s.id (.ofPrim target.prim) type
        (.bitcast ⟨.f32, 1⟩ (.ident (.seen s.id))) (exchangeLoop s.id op target.word v.expr)
        [target.use]).code.declared =
        [.ident (.seen s.id), .ident (.wanted s.id), .ident (.outcome s.id),
          .ident (.temp s.id)] := rfl
    refine ⟨?_, ?_, rfl, forall_mem_singleton.2 hnumbered⟩
    · rw [hdeclared]
      simp [Name.owner?, Ident.owner?]
    · rw [hdeclared]
      simp
  | @binary _ _ _ a b _ t type e before _ _ _ _ _ he =>
    obtain ⟨-, -, hheaders, hbefore⟩ := binaryExpr_scoped he
      (subset_append_left a.expr.names b.expr.names) (subset_append_right _ _)
    have hdeclared : (Lowering.bound s.id t type e before).code.declared =
        before.declared ++ [.ident (.temp s.id)] := Code.declared_append _ _
    have hnone : (Lowering.bound s.id t type e before).code.headers = [] := by
      rw [Lowering.bound, Code.headers_append, hheaders]
      rfl
    refine ⟨?_, ?_, hnone, fun _ hu => absurd hu not_mem_nil⟩
    · rw [hdeclared]
      rcases hbefore with hbefore | hbefore <;> simp [hbefore, Name.owner?, Ident.owner?]
    · rw [hdeclared]
      rcases hbefore with hbefore | hbefore <;> simp [hbefore]

/-- What stands for a statement is in scope behind it, as its temporary or a counter around. -/
theorem Lowers.value_names (h : Lowers ctx values s l) {v : Value} (hv : l.value = some v)
    (hgrid : ∀ loop, ctx.gridLoop = some loop → .ident .gridIndex ∈ scope)
    (hcounter : ∀ loop, s.kind = .loopIndex loop → ctx.gridLoop ≠ some loop →
      .ident (.counter loop) ∈ scope) : v.expr.names ⊆ l.code.binds ++ scope := by
  cases h with
  | const =>
    cases hv
    simp
  | temporary =>
    cases hv
    simp
  | gridIndex _ hloop =>
    cases hv
    simpa [Lowering.standIn] using .inr (hgrid _ hloop)
  | counter hkind hloop =>
    cases hv
    simpa [Lowering.standIn] using .inr (hcounter _ hkind hloop)
  | sample _ _ hl | sampleLod _ _ _ hl =>
    obtain ⟨use, e, type, -, -, rfl⟩ := sampleTexture_eq_ok hl
    cases hv
    simp [Lowering.bound, Code.binds, Line.binds]
  | exitLoop | nextIteration | localStore | globalStore | temporaryStore | atomicStore
  | vertexOutput | position | color | fragDepth | discard | textureStore | ret => cases hv
  | alloca =>
    cases hv
    simp [Code.binds, Line.binds]
  | argLoad | rand | unary | binary | localLoad | globalPtr | globalLoad | temporaryLoad
  | atomicInt | atomicFloat | atomicLoad | vertexInput | fragmentInput | vertexIndex
  | instanceIndex | fragCoord | derivative | textureLoad | extract =>
    cases hv
    simp [Lowering.bound, Code.binds, Line.binds]

/-- What stands for a statement names values only. -/
theorem Named.standsIn {e : Expr} (h : Named ctx s e) : ∀ n ∈ e.names, n.standsIn = true := by
  cases h with
  | const c => simp
  | _ => simp [Name.standsIn]

end Codegen

end WgslKernel
