import WgslKernel.Proofs.Codegen.Compile
import WgslKernel.Proofs.Scoping.Drafts

/-!
# Scopes of compiled kernels

The main statement about names, for kernels compiled from any module that a session has finished
(`compile_wellNamed`).
-/

namespace WgslKernel

namespace Codegen

/-- Whether one of the given statements draws a random number. -/
def draws (m : Module) (members : List StmtId) : Bool :=
  members.any fun i => (m.kind? i).any Kind.isRandom

/-- The word of the generator's state that a line writes. -/
def stateWord? : Line → Option Selector
  | .assign (.select (.ident .randState) word) _ => some word
  | _ => none

/-- The names in the shader of an offload with the given members, which was drafted as `d`. -/
structure NamesInPlace (ctx : Context) (o : Offload) (members : List StmtId) (d : Draft)
    (s : Shader) : Prop where
  wellScoped : s.WellScoped
  /-- There is a counting loop for each range-for of the offload, in walk order. -/
  loops : s.body.headers.map LoopHeader.counter =
    (ctx.module.outlineOf ctx.module.outline o.stmts).stmts.filterMap o.inductionVariable?
  /-- The index of a loop stands for the variable of that loop, which is around it. -/
  index : ∀ i ∈ members, ∀ loop, ctx.module.kind? i = some (.loopIndex loop) →
    ∃ t u n, ctx.module.stmts[i]? = some t ∧ loop ∈ ctx.module.enclosing t.block ∧
      ctx.module.stmts[loop]? = some u ∧ o.inductionVariable? u = some n ∧
      n ∈ s.body.headers.map LoopHeader.counter ∧
      d.state.values.lookup i = some ⟨.ident n, .ofPrim .i32⟩
  random : s.random = draws ctx.module members
  /-- The generator's state and functions, and the name its seeding declares. -/
  once : ∀ n ∈ Shader.randomNames,
    (s.declared.map Name.text).count n.text = if draws ctx.module members then 1 else 0
  seeding : s.prologue =
    .ofLines (d.prologue ++ if draws ctx.module members then seedLines ctx else [])
  /-- The seeding writes the four words of the generator's state, each once. -/
  seeded : (d.prologue ++ if draws ctx.module members then seedLines ctx else []).filterMap
    stateWord? = if draws ctx.module members then [.x, .y, .z, .w] else []

variable {ctx : Context} {o : Offload} {members : List StmtId} {d : Draft} {bindings : BindingMap}

/-- Random numbers are drawn if a statement draws them. -/
theorem draws_eq (hinv : ctx.module.Inv) (ho : o ∈ ctx.module.groups)
    (hnested : ctx.module.nested o.stmts = .ok members) :
    draws ctx.module members = (ctx.module.outlineOf ctx.module.outline o.stmts).stmts.any
      fun s => s.kind.isRandom := by
  have hfound := fun {s : Stmt} => (hinv.placed_offload ho).found_of_mem (s := s)
  rw [Bool.eq_iff_iff, draws, List.any_eq_true, List.any_eq_true]
  constructor
  · rintro ⟨i, hi, hrandom⟩
    obtain ⟨s, hs, rfl⟩ := List.mem_map.1 ((Module.mem_nested hnested).1 hi)
    rw [Module.kind?, hfound hs] at hrandom
    exact ⟨s, hs, hrandom⟩
  · rintro ⟨s, hs, hrandom⟩
    refine ⟨s.id, (Module.mem_nested hnested).2 (List.mem_map_of_mem hs), ?_⟩
    rw [Module.kind?, hfound hs]
    exact hrandom

/-- **The names of a drafted shader are in place.** -/
theorem namesInPlace (hinv : ctx.module.Inv)
    (hadmitted : ∀ (i : Nat) (s : Stmt), ctx.module.stmts[i]? = some s →
      ctx.module.Admits s.block s.kind)
    (ho : o ∈ ctx.module.groups) (hnested : ctx.module.nested o.stmts = .ok members)
    (hstage : ctx.stage = o.kind.stage) (hgrid : ctx.gridLoop = none)
    (h : draft ctx { bindings } o = .ok d) :
    NamesInPlace ctx o members d (assemble ctx o.kind d).shader := by
  obtain ⟨grid, root, inner, around, start, code, hd⟩ := drafted_of_draft hinv ho hstage hgrid h
  obtain ⟨xs, fixed, owned, htidy⟩ := hd.tidy hadmitted
  have hrandom : d.state.random = draws ctx.module members := by
    rw [hd.random_eq, draws_eq hinv ho hnested]
  have hfound := fun {s : Stmt} => (hinv.placed_offload ho).found_of_mem (s := s)
  refine ⟨htidy.wellScoped, hd.loops, ?_, hrandom, ?_, ?_, ?_⟩
  · intro i hi loop hkind
    obtain ⟨t, ht, rfl⟩ := List.mem_map.1 ((Module.mem_nested hnested).1 hi)
    rw [Module.kind?, hfound ht] at hkind
    obtain ⟨hin, u, hu, rfl, n, hn, hlookup⟩ := hd.index hadmitted ht (Option.some.inj hkind)
    refine ⟨t, u, n, hfound ht, hin, hfound hu, hn, ?_, hlookup⟩
    have hloops : (assemble ctx o.kind d).shader.body.headers.map LoopHeader.counter =
        (ctx.module.outlineOf ctx.module.outline o.stmts).stmts.filterMap o.inductionVariable? :=
      hd.loops
    rw [hloops]
    exact List.mem_filterMap.2 ⟨u, hu, hn⟩
  · intro n hn
    rw [htidy.count_random hn, hrandom]
  · rw [← hrandom]
    rfl
  · have hprologue : d.prologue.filterMap stateWord? = [] := by
      cases hd.frame with
      | bare hprologue => rw [hprologue]; rfl
      | grid _ hprologue => rw [hprologue]; rfl
    rw [List.filterMap_append, hprologue]
    cases draws ctx.module members <;> rfl

end Codegen

/-- The task of an offload comes from a shader in which all names are in place. -/
def WellNamed (m : Module) (signature : Signature) (config : Config) (o : Offload) (t : Task) :
    Prop :=
  ∃ members previous bindings d, m.nested o.stmts = .ok members ∧
    Codegen.draft (Codegen.contextOf m o signature config previous) { bindings } o = .ok d ∧
    t = (Codegen.assemble (Codegen.contextOf m o signature config previous) o.kind d).task o.kind
      signature ∧
    Codegen.NamesInPlace (Codegen.contextOf m o signature config previous) o members d
      (Codegen.assemble (Codegen.contextOf m o signature config previous) o.kind d).shader

/-- **Names in compiled kernels are in place.**  A kernel that was compiled from a finished module
has a task for each offload, and in its shader every name is declared once, before it is used and
around where it is used. -/
theorem compile_wellNamed {actions : List Action} {session : Session} {m : Module}
    {signature : Signature} {config : Config} {kernel : Kernel}
    (hrun : Session.run {} actions = .ok session) (hfinish : session.builder.finish = .ok m)
    (hcompile : compile m signature config = .ok kernel) :
    List.Forall₂ (WellNamed m signature config) m.groups kernel.tasks := by
  obtain ⟨hinv, hadmitted⟩ := Session.inv_of_finish hrun hfinish
  obtain ⟨hpartition, htasks⟩ := compile_eq_ok hcompile
  refine (List.forall₂_and_left _ _).2 ⟨fun o ho => ho, htasks⟩ |>.imp ?_
  rintro o t ⟨ho, previous, hgen⟩
  obtain ⟨p, hp, h⟩ := bind_eq_ok.1 hgen
  cases h
  obtain ⟨bindings, d, hd, rfl⟩ := Codegen.program_eq_ok hp
  obtain ⟨members, hnested⟩ := Module.nested_of_partition hpartition ho
  exact ⟨members, previous, bindings, d, hnested, hd, rfl,
    Codegen.namesInPlace hinv hadmitted ho hnested rfl rfl hd⟩

/-- Two loops that draw random numbers; the second is opened first, and again after the other. -/
def Session.noise : List Action :=
  [.create (.const (.i32 4)), .create (.rangeFor (.value 0) false),
    .create (.rangeFor (.value 0) false), .openGuard .rangeFor 2, .create (.loopIndex 2),
    .create (.rangeFor (.value 3) true), .closeGuard 0, .openGuard .rangeFor 1,
    .create (.rand .i32), .create (.loopIndex 1),
    .create (.globalPtr ⟨0, [4], .i32, 1, 0, 0, true⟩ [6] 0), .create (.globalStore 7 5),
    .closeGuard 1, .openGuard .rangeFor 2, .openGuard .rangeFor 4, .create (.loopIndex 4),
    .create (.rand .i32), .create (.binary .add 9 10), .create (.binary .mul 11 3),
    .create (.globalPtr ⟨0, [4], .i32, 1, 0, 0, true⟩ [9] 0), .create (.atomic .add 13 12),
    .closeGuard 3, .closeGuard 2]

/-- Both loops set up random numbers. -/
theorem compile_wellNamed_noise : ∃ (session : Session) (m : Module) (kernel : Kernel),
    Session.run {} Session.noise = .ok session ∧ session.builder.finish = .ok m ∧
      compile m ⟨0, 0⟩ {} = .ok kernel ∧ kernel.tasks.length = 2 ∧
      List.Forall₂ (WellNamed m ⟨0, 0⟩ {}) m.groups kernel.tasks := by
  have hkernel : ∃ session m kernel, Session.run {} Session.noise = .ok session ∧
      session.builder.finish = .ok m ∧ compile m ⟨0, 0⟩ {} = .ok kernel ∧
      kernel.tasks.length = 2 := ⟨_, _, _, rfl, rfl, rfl, rfl⟩
  obtain ⟨session, m, kernel, hrun, hfinish, hcompile, hlength⟩ := hkernel
  exact ⟨session, m, kernel, hrun, hfinish, hcompile, hlength,
    compile_wellNamed hrun hfinish hcompile⟩

end WgslKernel
