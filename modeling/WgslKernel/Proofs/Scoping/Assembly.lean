import WgslKernel.Proofs.Scoping.Walk

/-!
# Scopes of assembled shaders

A declared name is that of a resource, one of a dozen fixed names, or that of a statement, and the
three do not mix.  So no name of a shader is declared twice, and its declarations ahead of the code
never depend on later ones.
-/

namespace WgslKernel

open List

/-! ## Declarations ahead of the code -/

theorem Decl.scoped_append {a b : List Decl} {scope : List Name} :
    Decl.Scoped scope (a ++ b) ↔
      Decl.Scoped scope a ∧ Decl.Scoped (scope ++ a.flatMap Decl.declares) b := by
  induction a generalizing scope <;> simp_all [Decl.Scoped, and_assoc]

namespace Shader

variable {s : Shader}

theorem globals_scoped (gs : List Global) (scope : List Name) :
    Decl.Scoped scope (gs.flatMap Global.decls) := by
  induction gs generalizing scope with
  | nil => trivial
  | cons g gs ih =>
    rw [flatMap_cons, Decl.scoped_append]
    refine ⟨?_, ih _⟩
    unfold Global.decls
    dsimp only
    split <;> simp [Decl.Scoped]

/-- Declarations ahead of the code use only what was declared before. -/
theorem decls_scoped (s : Shader) : Decl.Scoped [] s.decls := by
  unfold decls
  rw [Decl.scoped_append, Decl.scoped_append, Decl.scoped_append, Decl.scoped_append]
  refine ⟨⟨⟨⟨globals_scoped _ _, ?_⟩, ?_⟩, ?_⟩, ?_⟩
  · split <;> simp [randomDecls, Decl.Scoped]
  · cases s.layout.inputs <;> simp [Decl.Scoped]
  · cases s.layout.outputs <;> simp [Decl.Scoped]
  · unfold entryDecls returnsOutput
    cases s.stage <;> cases s.layout.inputs <;> cases s.layout.outputs <;>
      simp [Decl.Scoped, Stage.isGraphics]

/-- The names that a declared resource takes. -/
def resourceNames (g : Global) : List Name := g.decls.flatMap Decl.declares

/-- The names declared ahead of the code that are not those of resources. -/
def interfaceNames (s : Shader) : List Name :=
  (if s.random then [.randStruct, .ident .randState, .helper .randU32, .helper .randF32] else []) ++
    (if s.layout.inputs.isEmpty then [] else [.inputStruct]) ++
    (if s.layout.outputs.isEmpty then [] else [.outputStruct]) ++
    s.entryDecls.flatMap Decl.declares

theorem outer_eq (s : Shader) : s.outer = s.globals.flatMap resourceNames ++ s.interfaceNames := by
  have hglobals (gs : List Global) :
      (gs.flatMap Global.decls).flatMap Decl.declares = gs.flatMap resourceNames := by
    rw [flatMap_assoc]
    rfl
  unfold outer decls interfaceNames
  simp only [flatMap_append, hglobals, List.append_assoc]
  congr 1
  cases s.random <;> cases s.layout.inputs <;> cases s.layout.outputs <;> simp [randomDecls]

theorem stageInput_mem (hstage : s.stage ≠ .compute) (h : s.layout.inputs ≠ []) :
    .ident .stageInput ∈ s.interfaceNames := by
  unfold interfaceNames entryDecls
  cases hs : s.stage with
  | compute => exact absurd hs hstage
  | vertex | fragment => simp [h]

theorem stageOutput_mem (hstage : s.stage ≠ .compute) (h : s.layout.outputs ≠ []) :
    .ident .stageOutput ∈ s.interfaceNames := by
  unfold interfaceNames entryDecls returnsOutput
  cases hs : s.stage with
  | compute => exact absurd hs hstage
  | vertex | fragment => simp [h, Stage.isGraphics]

theorem invocation_mem (hstage : s.stage = .compute) :
    .ident .globalInvocationId ∈ s.interfaceNames ∧ .ident .numWorkgroups ∈ s.interfaceNames := by
  simp [interfaceNames, entryDecls, hstage]

/-- The names of the stage interface and of the random-number generator. -/
def interface : List Name :=
  [.randStruct, .ident .randState, .helper .randU32, .helper .randF32, .inputStruct, .outputStruct,
    .entry, .ident .globalInvocationId, .ident .numWorkgroups, .ident .stageInput,
    .ident .stageOutput]

theorem interfaceNames_sublist (s : Shader) : s.interfaceNames.Sublist interface := by
  unfold interfaceNames entryDecls returnsOutput interface
  cases s.random <;> cases s.stage <;> cases s.layout.inputs <;> cases s.layout.outputs <;>
    simp [Stage.isGraphics] <;> decide

/-- What the random-number generator and its seeding declare. -/
def randomNames : List Name :=
  [.randStruct, .ident .randState, .helper .randU32, .helper .randF32, .ident .randId]

theorem mem_interfaceNames_random {n : Name} (hn : n ∈ randomNames) :
    n ∈ s.interfaceNames ↔ s.random = true ∧ n ≠ .ident .randId := by
  simp only [randomNames, mem_cons, not_mem_nil, or_false] at hn
  unfold interfaceNames entryDecls returnsOutput
  rcases hn with rfl | rfl | rfl | rfl | rfl <;>
    cases s.random <;> cases s.stage <;> cases s.layout.inputs <;> cases s.layout.outputs <;>
    simp [Stage.isGraphics]

/-- All names but those of resources and statements. -/
def standard : List Name :=
  interface ++
    ([.ident .totalInvocs, .ident .rangeEnd] ++ ([.ident .randId] ++ [.ident .gridIndex]))

end Shader

/-! ## No name twice -/

/-- The resource that a name is made for. -/
def Name.resource? : Name → Option Resource
  | ident (.resource r) | wordsOf r => some r
  | _ => none

open Shader

theorem resource?_of_mem_resourceNames {g : Global} {n : Name} (h : n ∈ resourceNames g) :
    n.resource? = some g.binding.resource := by
  unfold resourceNames Global.decls at h
  dsimp only at h
  split at h
  · simp only [flatMap_cons, flatMap_nil, append_nil, cons_append,
      nil_append, mem_cons, not_mem_nil, or_false] at h
    rcases h with rfl | rfl <;> rfl
  · simp only [flatMap_cons, flatMap_nil, append_nil, mem_singleton] at h
    rw [h]
    rfl

/-- Resources are declared once. -/
theorem resourceNames_nodup {gs : List Global} (h : (gs.map fun g => g.binding.resource).Nodup) :
    (gs.flatMap resourceNames).Nodup := by
  rw [nodup_flatMap]
  constructor
  · intro g _
    unfold resourceNames Global.decls
    dsimp only
    split <;> simp
  · refine (pairwise_map.1 h).imp fun {g g'} hne => ?_
    refine disjoint_left.2 fun n hn hn' => ?_
    have hg := resource?_of_mem_resourceNames hn
    rw [resource?_of_mem_resourceNames hn'] at hg
    exact hne (Option.some.inj hg).symm

theorem resource?_of_mem_standard : ∀ n ∈ standard, n.resource? = none := by decide

theorem owner?_of_mem_standard : ∀ n ∈ standard, n.owner? = none := by decide

theorem nodup_standard : standard.Nodup := by decide

theorem isProper_of_mem_standard : ∀ n ∈ standard, n.IsProper := by
  simp [standard, interface, Name.IsProper, Func.isHelper]

theorem isProper_of_resource? {n : Name} {r : Resource} (h : n.resource? = some r)
    (hr : r.IsNumbered) : n.IsProper := by
  cases n with
  | ident n =>
    cases n with
    | resource r' =>
      cases h
      exact hr
    | _ => cases h
  | wordsOf r' =>
    cases h
    exact hr
  | _ => cases h

/-- The names of a statement are neither those of a resource nor fixed. -/
theorem resource?_of_owner? {n : Name} {x : StmtId} (h : n.owner? = some x) :
    n.resource? = none ∧ n.IsProper := by
  cases n with
  | ident n =>
    cases n with
    | resource => cases h
    | _ => exact ⟨rfl, trivial⟩
  | _ => cases h

namespace Codegen

section Declared

variable {gs : List Global} {fixed owned : List Name} {xs : List StmtId}

theorem isProper_of_mem_declared (hnumbered : ∀ g ∈ gs, g.binding.resource.IsNumbered)
    (hfixed : fixed.Sublist standard) (howned : OwnedBy xs owned) :
    ∀ n ∈ gs.flatMap resourceNames ++ (fixed ++ owned), n.IsProper := by
  intro n hn
  rcases mem_append.1 hn with hn | hn
  · obtain ⟨g, hg, hn⟩ := mem_flatMap.1 hn
    exact isProper_of_resource? (resource?_of_mem_resourceNames hn) (hnumbered g hg)
  rcases mem_append.1 hn with hn | hn
  · exact isProper_of_mem_standard n (hfixed.subset hn)
  · obtain ⟨x, -, hx⟩ := howned.owner n hn
    exact (resource?_of_owner? hx).2

/-- **Names of resources, fixed names and names of statements do not mix.** -/
theorem nodup_declared (hgs : (gs.map fun g => g.binding.resource).Nodup)
    (hfixed : fixed.Sublist standard) (howned : OwnedBy xs owned) :
    (gs.flatMap resourceNames ++ (fixed ++ owned)).Nodup := by
  refine nodup_append.2 ⟨resourceNames_nodup hgs, ?_, ?_⟩
  · refine nodup_append.2 ⟨hfixed.nodup nodup_standard, howned.nodup, ?_⟩
    rintro a ha b hb rfl
    obtain ⟨x, -, hx⟩ := howned.owner a hb
    rw [owner?_of_mem_standard a (hfixed.subset ha)] at hx
    cases hx
  · rintro a ha b hb rfl
    obtain ⟨g, -, hg⟩ := mem_flatMap.1 ha
    have hresource := resource?_of_mem_resourceNames hg
    rcases mem_append.1 hb with hb | hb
    · rw [resource?_of_mem_standard a (hfixed.subset hb)] at hresource
      cases hresource
    · obtain ⟨x, -, hx⟩ := howned.owner a hb
      rw [(resource?_of_owner? hx).1] at hresource
      cases hresource

/-- A fixed name is declared if it is among the fixed names that are. -/
theorem mem_declared_iff (howned : OwnedBy xs owned) {n : Name} (hn : n ∈ standard) :
    n ∈ gs.flatMap resourceNames ++ (fixed ++ owned) ↔ n ∈ fixed := by
  simp only [mem_append]
  constructor
  · rintro (h | h | h)
    · obtain ⟨g, -, hg⟩ := mem_flatMap.1 h
      have hresource := resource?_of_mem_resourceNames hg
      rw [resource?_of_mem_standard n hn] at hresource
      cases hresource
    · exact h
    · obtain ⟨x, -, hx⟩ := howned.owner n h
      rw [owner?_of_mem_standard n hn] at hx
      cases hx
  · exact fun h => .inr (.inl h)

end Declared

variable {ctx : Context} {kind : OffloadKind} {d : Draft} {scope : List Name} {n : Name}

/-- **Everything that a walk asked for is declared.** -/
theorem mem_outer_of_offers (hst : d.state.Sound ctx) (hn : d.state.Offers n) :
    n ∈ (assemble ctx kind d).shader.outer := by
  have hinterface (h : n ∈ (assemble ctx kind d).shader.interfaceNames) :
      n ∈ (assemble ctx kind d).shader.outer := by
    rw [outer_eq]
    exact mem_append_right _ h
  unfold State.Offers at hn
  split at hn
  · rename_i r
    obtain ⟨g, hg, rfl⟩ := mem_map.1 hn
    rw [outer_eq]
    refine mem_append_left _ (mem_flatMap.2 ⟨g, hg, ?_⟩)
    unfold resourceNames Global.decls
    dsimp only
    split <;> simp
  · exact hinterface (stageInput_mem (fun h => (hst.compute h).1 hn) hn)
  · exact hinterface (stageOutput_mem (fun h => (hst.compute h).2 hn) hn)
  · obtain ⟨hf, hrandom⟩ := hn
    refine hinterface ?_
    rcases Func.eq_of_isHelper hf with rfl | rfl <;> simp [interfaceNames, assemble, hrandom]
  · cases hn

/-- The lines that seed random numbers use what drawing one asked for. -/
theorem seedLines_scoped (hst : d.state.Sound ctx) (hrandom : d.state.random = true)
    (hscope : (assemble ctx kind d).shader.outer ⊆ scope) :
    (Code.ofLines (seedLines ctx)).Scoped scope := by
  obtain ⟨htmps, hinput⟩ := hst.seeded hrandom
  have htmps := hscope (mem_outer_of_offers hst htmps)
  have hstate : .ident .randState ∈ scope := by
    refine hscope ?_
    rw [outer_eq]
    exact mem_append_right _ (by simp [interfaceNames, assemble, hrandom])
  have hid : (randId ctx.stage).names ⊆ scope := by
    have hinput (h : ctx.stage ≠ .compute) := hscope (mem_outer_of_offers hst (hinput h))
    cases hs : ctx.stage with
    | compute =>
      have hmem := (invocation_mem (s := (assemble ctx kind d).shader) hs).1
      have houter : .ident .globalInvocationId ∈ scope := by
        refine hscope ?_
        rw [outer_eq]
        exact mem_append_right _ hmem
      simpa [randId] using houter
    | vertex | fragment => simpa [randId] using hinput (by simp [hs])
  simp [seedLines, Code.ofLines, Code.Scoped, Line.names, Line.binds, hid, hstate, htmps]

theorem ofLines_append (a b : List Line) :
    Code.ofLines (a ++ b) = Code.ofLines a ++ Code.ofLines b := by
  induction a with
  | nil => rfl
  | cons l ls ih => rw [cons_append, Code.ofLines, ih, Code.ofLines, Code.line_append]

/-! ## Whole shaders -/

/-- A draft once its walk is done: its parts are scoped, and declare the names of the loop at most.
-/
structure Draft.Tidy (ctx : Context) (kind : OffloadKind) (d : Draft) (xs : List StmtId)
    (fixed owned : List Name) : Prop where
  sound : d.state.Sound ctx
  prologue : (Code.ofLines d.prologue).Scoped (assemble ctx kind d).shader.outer
  body : ∀ scope, (assemble ctx kind d).shader.outer ⊆ scope →
    (Code.ofLines d.prologue).binds ⊆ scope → d.body.Scoped scope
  lead : (Code.ofLines d.prologue).declared.Sublist [.ident .totalInvocs, .ident .rangeEnd]
  declared : d.body.declared = fixed ++ owned
  fixed : fixed.Sublist [.ident .gridIndex]
  owned : OwnedBy xs owned

/-- The fixed names that a shader declares. -/
def fixedNames (ctx : Context) (kind : OffloadKind) (d : Draft) (fixed : List Name) : List Name :=
  (assemble ctx kind d).shader.interfaceNames ++ ((Code.ofLines d.prologue).declared ++
    ((if d.state.random then [.ident .randId] else []) ++ fixed))

namespace Draft.Tidy

variable {xs : List StmtId} {fixed owned : List Name}

theorem fixedNames_sublist (h : d.Tidy ctx kind xs fixed owned) :
    (fixedNames ctx kind d fixed).Sublist standard := by
  refine (interfaceNames_sublist _).append (h.lead.append (List.Sublist.append ?_ h.fixed))
  split <;> simp

/-- What a shader declares, in three parts. -/
theorem declared_eq (h : d.Tidy ctx kind xs fixed owned) :
    (assemble ctx kind d).shader.declared =
      d.state.globals.flatMap resourceNames ++ (fixedNames ctx kind d fixed ++ owned) := by
  have hseed : (Code.ofLines (if d.state.random then seedLines ctx else [])).declared =
      if d.state.random then [.ident .randId] else [] := by
    split <;> rfl
  have hcode : (assemble ctx kind d).shader.prologue ++ (assemble ctx kind d).shader.body =
      Code.ofLines (d.prologue ++ if d.state.random then seedLines ctx else []) ++ d.body := rfl
  rw [Shader.declared, outer_eq, hcode, Code.declared_append, ofLines_append, Code.declared_append,
    hseed, h.declared, fixedNames]
  simp only [List.append_assoc]
  rfl

theorem isProper (h : d.Tidy ctx kind xs fixed owned) :
    ∀ n ∈ (assemble ctx kind d).shader.declared, n.IsProper := by
  rw [h.declared_eq]
  exact isProper_of_mem_declared (fun g hg => h.sound.numbered _ (mem_map_of_mem hg))
    h.fixedNames_sublist h.owned

/-- No name of a shader is declared twice. -/
theorem texts_nodup (h : d.Tidy ctx kind xs fixed owned) :
    ((assemble ctx kind d).shader.declared.map Name.text).Nodup := by
  have hnodup : (assemble ctx kind d).shader.declared.Nodup := by
    rw [h.declared_eq]
    exact nodup_declared h.sound.nodup h.fixedNames_sublist h.owned
  exact hnodup.map_on fun a ha b hb hab => Name.text_inj (h.isProper a ha) (h.isProper b hb) hab

/-- The code of a shader is scoped. -/
theorem code_scoped (h : d.Tidy ctx kind xs fixed owned) :
    ((assemble ctx kind d).shader.prologue ++ (assemble ctx kind d).shader.body).Scoped
      (assemble ctx kind d).shader.outer := by
  have hcode : (assemble ctx kind d).shader.prologue ++ (assemble ctx kind d).shader.body =
      Code.ofLines (d.prologue ++ if d.state.random then seedLines ctx else []) ++ d.body := rfl
  rw [hcode, ofLines_append, Code.scoped_append, Code.scoped_append, Code.binds_append]
  refine ⟨⟨h.prologue, ?_⟩, h.body _ (subset_append_right _ _) ?_⟩
  · split
    · rename_i hrandom
      exact seedLines_scoped h.sound hrandom (subset_append_right _ _)
    · trivial
  · rw [List.append_assoc]
    exact fun n hn => mem_append_right _ (mem_append_left _ hn)

/-- **A tidy draft makes a shader in which every name is in its place.** -/
theorem wellScoped (h : d.Tidy ctx kind xs fixed owned) :
    (assemble ctx kind d).shader.WellScoped := ⟨h.texts_nodup, decls_scoped _, h.code_scoped⟩

theorem mem_fixedNames_random (h : d.Tidy ctx kind xs fixed owned) {n : Name}
    (hn : n ∈ randomNames) : n ∈ fixedNames ctx kind d fixed ↔ d.state.random = true := by
  have hapart : ∀ n ∈ randomNames,
      n ∉ [.ident .totalInvocs, .ident .rangeEnd] ∧ n ∉ [Name.ident .gridIndex] := by decide
  have hlead : n ∉ (Code.ofLines d.prologue).declared := fun hmem =>
    (hapart n hn).1 (h.lead.subset hmem)
  have hfixed : n ∉ fixed := fun hmem => (hapart n hn).2 (h.fixed.subset hmem)
  have hinterface : n ∈ (assemble ctx kind d).shader.interfaceNames ↔
      d.state.random = true ∧ n ≠ .ident .randId := mem_interfaceNames_random hn
  rw [fixedNames, mem_append, mem_append, mem_append, hinterface]
  by_cases hid : n = .ident .randId
  · cases d.state.random <;> simp_all
  · cases d.state.random <;> simp_all

/-- **What belongs to random numbers is declared once if any are drawn**, else not at all. -/
theorem count_random (h : d.Tidy ctx kind xs fixed owned) {n : Name} (hn : n ∈ randomNames) :
    ((assemble ctx kind d).shader.declared.map Name.text).count n.text =
      if d.state.random then 1 else 0 := by
  have hstandard : n ∈ standard := by
    revert n
    decide
  have hmem : n ∈ (assemble ctx kind d).shader.declared ↔ d.state.random = true := by
    rw [h.declared_eq, mem_declared_iff h.owned hstandard, h.mem_fixedNames_random hn]
  have htext : n.text ∈ (assemble ctx kind d).shader.declared.map Name.text ↔
      n ∈ (assemble ctx kind d).shader.declared := by
    constructor
    · intro ht
      obtain ⟨n', hn', heq⟩ := mem_map.1 ht
      rwa [← Name.text_inj (h.isProper n' hn') (isProper_of_mem_standard n hstandard) heq]
    · exact fun hn => mem_map_of_mem hn
  split
  · rename_i hrandom
    exact count_eq_one_of_mem h.texts_nodup (htext.2 (hmem.2 hrandom))
  · rename_i hrandom
    exact count_eq_zero_of_not_mem fun ht => hrandom (hmem.1 (htext.1 ht))

end Draft.Tidy

end Codegen

end WgslKernel
