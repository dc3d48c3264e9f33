import WgslKernel.Proofs.Scoping.Walk
import WgslKernel.Proofs.Typing.Lowering

/-!
# Types along a walk

`InEnv` connects the table of a walk to the declarations in scope, and each step of a walk keeps it,
provided that everything the walk collected is declared in the end.
-/

namespace WgslKernel.Codegen

open List

variable {ctx : Context} {st st' : State} {values : Values} {s : Stmt} {l : Lowering}
  {walked visible around : List StmtId} {Γ Γ' : Env} {x id : StmtId} {o : Outline} {code : Code}

/-! ## What a walk collects -/

/-- What a statement can ask of a shader. -/
inductive Item where
  | resource (r : Resource)
  | input (member : StageMember)
  | output (member : StageMember)

/-- A structure has a member, under its name. -/
def HasMember (members : List StageMember) (member : StageMember) : Prop :=
  members.find? (fun other => other.name = member.name) = some member

/-- An item has been collected. -/
def State.Has (st : State) : Item → Prop
  | .resource r => r ∈ st.resources
  | .input member => HasMember st.inputs member
  | .output member => HasMember st.outputs member

theorem HasMember.append {members : List StageMember} {member : StageMember}
    (h : HasMember members member) (more : List StageMember) :
    HasMember (members ++ more) member := by
  rw [HasMember, List.find?_append, h]
  rfl

theorem HasMember.ne_nil {members : List StageMember} {member : StageMember}
    (h : HasMember members member) : members ≠ [] := by
  rintro rfl
  cases h

theorem HasMember.member? {members : List StageMember} {member : StageMember}
    (h : HasMember members member) :
    (Ty.stage members).member? (.stage member.name) = some (.data member.type) := by
  rw [Ty.member?, h]
  rfl

/-- Adding a member makes it one, and leaves the others. -/
theorem addMember_hasMember {members members' : List StageMember} {member : StageMember}
    (h : State.addMember id members member = .ok members') :
    HasMember members' member ∧ ∀ other, HasMember members other → HasMember members' other := by
  obtain ⟨hnone, rfl⟩ | ⟨hfind, rfl⟩ := addMember_cases h
  · refine ⟨?_, fun other hother => hother.append _⟩
    rw [HasMember, List.find?_append, hnone]
    simp
  · exact ⟨hfind, fun _ hother => hother⟩

theorem addMembers_hasMember {members members' ms : List StageMember}
    (h : ms.foldlM (State.addMember id) members = .ok members') :
    (∀ member ∈ ms, HasMember members' member) ∧
      ∀ other, HasMember members other → HasMember members' other := by
  induction ms generalizing members with
  | nil =>
    cases h
    exact ⟨by simp, fun _ hother => hother⟩
  | cons m ms ih =>
    rw [foldlM_cons] at h
    obtain ⟨members₁, hm, h⟩ := bind_eq_ok.1 h
    obtain ⟨hall, hkeep⟩ := ih h
    obtain ⟨hfirst, hkeep₁⟩ := addMember_hasMember hm
    exact ⟨forall_mem_cons.2 ⟨hkeep m hfirst, hall⟩, fun other ho => hkeep other (hkeep₁ other ho)⟩

/-- What a statement asks for. -/
def Lowering.Wants (l : Lowering) : Item → Prop
  | .resource r => ∃ u ∈ l.uses, u.resource = r
  | .input member => member ∈ l.inputs
  | .output member => member ∈ l.outputs

/-- **A statement adds what it asks for** to what has been collected. -/
theorem apply_has (h : st.apply id l = .ok st') {item : Item} (hitem : st.Has item ∨ l.Wants item) :
    st'.Has item := by
  obtain ⟨bindings, globals, inputs, outputs, huses, hinputs, houtputs, rfl⟩ := apply_eq_ok h
  cases item with
  | resource r => exact ((uses_resources huses).1 r).2 hitem
  | input member =>
    obtain ⟨hadded, hkept⟩ := addMembers_hasMember hinputs
    exact hitem.elim (hkept member) (hadded member)
  | output member =>
    obtain ⟨hadded, hkept⟩ := addMembers_hasMember houtputs
    exact hitem.elim (hkept member) (hadded member)

/-- What was collected stays collected. -/
theorem Walks.has (h : Walks ctx st o st' code) {item : Item} (hitem : st.Has item) :
    st'.Has item :=
  h.keeps (P := fun st => st.Has item)
    (fun _ hitem _ happly => apply_has happly (.inl hitem)) hitem

/-- What was collected is declared, as it is used. -/
def Item.Declared (ctx : Context) (Γ : Env) : Item → Prop
  | .resource r => ∀ {atomic writable : Bool} {length : Option Nat},
    Declares ctx r (.buffer atomic length writable) → (.resource r, ⟨.buffer atomic, writable⟩) ∈ Γ
  | .input member => HasType Γ (.input member.name) (.data member.type)
  | .output member => Assignable Γ (.output member.name) (.data member.type)

theorem Item.Declared.mono {item : Item} (h : item.Declared ctx Γ) (hsub : Γ ⊆ Γ') :
    item.Declared ctx Γ' := by
  cases item with
  | resource r => exact fun hd => hsub (h hd)
  | input member => exact HasType.mono h hsub
  | output member => exact Assignable.mono h hsub

/-- What stands for visible statements is of its type, and counters around are integers. -/
abbrev InEnv (ctx : Context) (values : Values) (visible around : List StmtId) (Γ : Env) : Prop :=
  Knows (Entered ctx.module) (fun n => (n, ⟨.i32, true⟩)) ctx values visible around Γ

namespace InEnv

/-- The operands of a statement are entered, and so are constants from elsewhere. -/
theorem value (h : InEnv ctx values visible around Γ)
    (htab : Tabled ctx values walked visible around)
    (hscope : ∀ x ∈ s.kind.operands, x ∈ walked → x ∈ visible) :
    ∀ x ∈ s.kind.operands, ∀ v, ctx.value values s.id x = .ok v → Entered ctx.module Γ x v := by
  intro x hx v hv
  rcases value_eq_ok.1 hv with hv | ⟨-, c, hkind, rfl⟩
  · exact h.entry (hscope x hx (htab.keys hv)) hv
  · exact .of_typed hkind rfl (Value.typed_ofConst c)

/-- What a statement finds at its position. -/
theorem furnished (h : InEnv ctx st.values visible around Γ)
    (htab : Tabled ctx st.values walked visible around)
    (hscope : ∀ x ∈ s.kind.operands, x ∈ walked → x ∈ visible)
    (hinside : ctx.module.enclosing s.block = around)
    (hadmits : ctx.module.Admits s.block s.kind) (hl : Lowers ctx st.values s l)
    (happly : st.apply s.id l = .ok st')
    (hposition : ctx.stage = .vertex → Assignable Γ (.output .position) (.data ⟨.f32, 4⟩))
    (hdeclared : ∀ item : Item, st'.Has item → item.Declared ctx Γ) :
    Furnished ctx st.values s l Γ where
  operands := h.value htab hscope
  buffer u hu {atomic writable length} hd := by
    have hhas : st'.Has (.resource u.resource) := apply_has happly (.inr ⟨u, hu, rfl⟩)
    exact hdeclared _ hhas (hd ▸ hl.declares u hu)
  input member hm := hdeclared (.input member) (apply_has happly (.inr hm))
  output member hm := hdeclared (.output member) (apply_has happly (.inr hm))
  position := hposition
  counter loop hkind hgrid := by
    rw [hkind] at hadmits
    exact h.counter (hinside ▸ hadmits.2) hadmits.1 hgrid
  grid loop hgrid := h.grid hgrid

end InEnv

/-- Conditions compare a scalar to the zero of its own kind. -/
theorem branchCondition_typed {cond : StmtId} {c : Expr}
    (hvalues : ∀ v, ctx.value values s.id cond = .ok v → Entered ctx.module Γ cond v)
    (h : branchCondition ctx values s.id cond = .ok c) : HasType Γ c (.bool 1) := by
  obtain ⟨v, hv, h⟩ := bind_eq_ok.1 h
  cases h
  obtain ⟨hv, hscalar⟩ := scalar_eq_ok.1 hv
  exact (hvalues v hv).typed.compareZero (ValueType.isScalar_iff.1 hscalar) (.inr rfl)

/-- Bounds of loops are integers. -/
theorem loopBound_typed {bound : RangeBound} {serial : Bool} {body : BlockId} {stop : Expr}
    (hkind : s.kind = .rangeFor bound serial body)
    (hvalues : ∀ x ∈ s.kind.operands, ∀ v, ctx.value values s.id x = .ok v →
      Entered ctx.module Γ x v)
    (h : loopBound ctx values s.id bound = .ok stop) : HasType Γ stop .i32 := by
  rcases loopBound_eq_ok h with ⟨f, n, -, -, rfl⟩ | ⟨x, v, rfl, hv, hint, rfl⟩
  · exact .int _
  · have htyped := (hvalues x (by simp [hkind, Kind.operands]) v hv).typed
    rwa [Value.Typed, hint] at htyped

/-- **The code of a walk is well typed**, if all it collected is declared and it met no texture. -/
theorem Walks.typed (hadmitted : ∀ (i : Nat) (s : Stmt), ctx.module.stmts[i]? = some s →
      ctx.module.Admits s.block s.kind) (h : Walks ctx st o st' code) :
    ∀ {walked visible around : List StmtId} {Γ : Env},
    o.Placed ctx.module walked visible around →
    Tabled ctx st.values walked visible around → InEnv ctx st.values visible around Γ →
    (ctx.stage = .vertex → Assignable Γ (.output .position) (.data ⟨.f32, 4⟩)) →
    (∀ item : Item, st'.Has item → item.Declared ctx Γ) →
    (∀ s ∈ o.stmts, s.kind.isTexture = false) → ∃ Δ, code.Typed Γ Δ := by
  induction h with
  | nil => exact fun _ _ _ _ _ _ => ⟨[], .done⟩
  | @branch st st₁ st₂ st₃ s first second rest _ _ _ c yes no tail hkind hcond hfirst hsecond hrest
      ihFirst ihSecond ihRest =>
    intro walked visible around Γ hplaced htab hin hposition hdeclared htexture
    obtain ⟨-, htexture₁, htexture₂, htexture₃⟩ := Outline.forall_stmts_cons.1 htexture
    cases hplaced with
    | cons found fresh hscope _ hpfirst hpsecond hprest =>
      have hvalues := hin.value htab hscope
      rw [hkind] at hvalues
      have hplays : ¬ ctx.module.Plays s.id .rangeFor :=
        not_plays_rangeFor found (by simp [hkind])
      have htabFirst := htab.enter fresh
      have htabSecond := htabFirst.walk hpfirst hfirst
      have htabRest := ((htab.pass fresh).walk hpfirst hfirst).walk hpsecond hsecond
      have hin₀ := hin.pass (htab.lookup_none fresh)
      have hin₁ := hin₀.congr (htabFirst.unchanged hpfirst hfirst)
      have hin₂ := hin₁.congr (htabSecond.unchanged hpsecond hsecond)
      have hc := branchCondition_typed (hvalues _ mem_cons_self) hcond
      obtain ⟨Δ₁, hyes⟩ := ihFirst hpfirst htabFirst (hin₀.enter hplays) hposition
        (fun item hi => hdeclared item (hrest.has (hsecond.has hi))) htexture₁
      obtain ⟨Δ₂, hno⟩ := ihSecond hpsecond htabSecond (hin₁.enter hplays) hposition
        (fun item hi => hdeclared item (hrest.has hi)) htexture₂
      obtain ⟨Δ, htail⟩ := ihRest hprest htabRest hin₂ hposition hdeclared htexture₃
      unfold branchCode
      split
      · exact ⟨Δ, .branch hc hyes htail⟩
      · exact ⟨Δ, .branchElse hc hyes hno htail⟩
  | @loop st st₁ st₂ s first second rest _ body tail hkind hfirst hrest ihFirst ihRest =>
    intro walked visible around Γ hplaced htab hin hposition hdeclared htexture
    obtain ⟨-, htexture₁, -, htexture₃⟩ := Outline.forall_stmts_cons.1 htexture
    cases hplaced with
    | cons found fresh hscope _ hpfirst hpsecond hprest =>
      have hplays : ¬ ctx.module.Plays s.id .rangeFor :=
        not_plays_rangeFor found (by simp [hkind])
      have htabFirst := htab.enter fresh
      have htabRest := ((htab.pass fresh).walk hpfirst hfirst).more second.ids
      have hin₀ := hin.pass (htab.lookup_none fresh)
      have hin₁ := hin₀.congr (htabFirst.unchanged hpfirst hfirst)
      obtain ⟨Δ₁, hbody⟩ := ihFirst hpfirst htabFirst (hin₀.enter hplays) hposition
        (fun item hi => hdeclared item (hrest.has hi)) htexture₁
      obtain ⟨Δ, htail⟩ := ihRest hprest htabRest hin₁ hposition hdeclared htexture₃
      exact ⟨Δ, .loop hbody htail⟩
  | @count st st₁ st₂ s first second rest _ _ _ stop body tail hkind hstop hfirst hrest ihFirst
      ihRest =>
    intro walked visible around Γ hplaced htab hin hposition hdeclared htexture
    obtain ⟨-, htexture₁, -, htexture₃⟩ := Outline.forall_stmts_cons.1 htexture
    cases hplaced with
    | cons found fresh hscope _ hpfirst hpsecond hprest =>
      have htabFirst := htab.enter fresh
      have htabRest := ((htab.pass fresh).walk hpfirst hfirst).more second.ids
      have hin₀ := hin.pass (htab.lookup_none fresh)
      have hin₁ := hin₀.congr (htabFirst.unchanged hpfirst hfirst)
      have hstop := loopBound_typed hkind (hin.value htab hscope) hstop
      have hmore : Γ ⊆ (.counter s.id, ⟨.i32, true⟩) :: Γ := subset_cons_self _ _
      obtain ⟨Δ₁, hbody⟩ := ihFirst hpfirst htabFirst (hin₀.count Entered.mono s.id)
        (fun hstage => (hposition hstage).mono hmore)
        (fun item hi => (hdeclared item (hrest.has hi)).mono hmore) htexture₁
      obtain ⟨Δ, htail⟩ := ihRest hprest htabRest hin₁ hposition hdeclared htexture₃
      exact ⟨Δ, .countLoop (.int 0) (hstop.mono hmore) (.int 1) hbody htail⟩
  | @leaf st st₁ st₂ s first second rest l tail hkind hlower happly hrest ihRest =>
    intro walked visible around Γ hplaced htab hin hposition hdeclared htexture
    obtain ⟨htexture₀, -, -, htexture₃⟩ := Outline.forall_stmts_cons.1 htexture
    cases hplaced with
    | cons found fresh hscope hinside _ _ hprest =>
      have hl := lowers_of_lower hkind hlower
      have hadmits := hadmitted _ _ found
      have hfurnished := hin.furnished htab hscope hinside hadmits hl happly hposition
        fun item hi => hdeclared item (hrest.has hi)
      have hfound : ctx.module.kind? s.id = some s.kind := by
        rw [Module.kind?, found, Option.map_some]
      obtain ⟨Δ, hcode, hentered⟩ := hl.typed hlower hfound hadmits htexture₀ hfurnished
      obtain ⟨Δ', htail⟩ := ihRest hprest
        (((htab.leaf hl happly fresh hinside hadmits).more first.ids).more second.ids)
        (hin.leaf Entered.mono htab happly fresh hentered)
        (fun hstage => (hposition hstage).mono (subset_append_right _ _))
        (fun item hi => (hdeclared item hi).mono (subset_append_right _ _)) htexture₃
      exact ⟨_, hcode.append htail⟩

end WgslKernel.Codegen
