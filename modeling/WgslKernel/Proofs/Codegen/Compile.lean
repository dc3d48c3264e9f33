import WgslKernel.Compile
import WgslKernel.Proofs.Codegen.Program

/-!
# One pass over the offloads

`compile` leaves the fragment stages for a second pass.  Without that it would be a loop that hands
the latest vertex stage on.  There are two such loops: `compileInOrder` stops at the first failure,
and `compileThrough` goes on behind an error, as `compile` does, and reports it in the end.
-/

namespace WgslKernel

open List

variable {m : Module} {signature : Signature} {config : Config}

/-! ## Loops -/

namespace Compile

/-- Generate offloads one after another.  `vertex` is the task of the latest vertex stage. -/
def sequence (m : Module) (signature : Signature) (config : Config) :
    Option Task → List Offload → Except Halt (List Task)
  | _, [] => .ok []
  | vertex, o :: os => do
    let previous := if o.kind = .fragmentFor then vertex else none
    let t ← generate m o signature config previous
    let ts ← sequence m signature config (if o.kind = .vertexFor then some t else vertex) os
    .ok (t :: ts)

/-- The latest vertex stage, after one more offload. -/
def handOn (vertex : Option Task) (o : Offload) : Except CodegenError Task → Option Task
  | .ok t => if o.kind = .vertexFor then some t else vertex
  | .error _ => vertex

/-- Generate offloads one after another, going on behind an error. -/
def outcomes (m : Module) (signature : Signature) (config : Config) :
    Option Task → List Offload → Except Fault (List (Except CodegenError Task))
  | _, [] => .ok []
  | vertex, o :: os => do
    let previous := if o.kind = .fragmentFor then vertex else none
    let outcome ← settle (generate m o signature config previous)
    let rest ← outcomes m signature config (handOn vertex o outcome) os
    .ok (outcome :: rest)

/-- The tasks of offloads, or the first of their errors. -/
def through (m : Module) (signature : Signature) (config : Config) (vertex : Option Task)
    (os : List Offload) : Except Halt (List Task) := do
  let outcomes ← orFault (outcomes m signature config vertex os)
  orError (outcomes.mapM id)

end Compile

/-- A task is of the kind of its offload. -/
theorem generate_kind {o : Offload} {previous : Option Task} {t : Task}
    (h : generate m o signature config previous = .ok t) : t.kind = o.kind := by
  obtain ⟨p, -, h⟩ := bind_eq_ok.1 h
  cases h
  rfl

theorem settle_eq_ok {α : Type} {x : Except Halt α} {r : Except CodegenError α} :
    settle x = .ok r ↔ x = orError r := by
  rcases x with (_ | _) | _ <;> cases r <;> simp [settle, orError]

theorem settle_eq_error {α : Type} {x : Except Halt α} {f : Fault} :
    settle x = .error f ↔ x = .error (.fault f) := by
  rcases x with (_ | _) | _ <;> simp [settle]

namespace Compile

variable {o : Offload} {os : List Offload} {vertex : Option Task} {ts : List Task}
  {rs : List (Except CodegenError Task)} {before first : List (Option (Except CodegenError Task))}

/-! ## The two passes and the loops -/

/-- What the first pass leaves of one offload. -/
theorem firstPhase_cons (h : firstPhase m signature config (o :: os) = .ok first) :
    ∃ slot rest, first = slot :: rest ∧ firstPhase m signature config os = .ok rest ∧
      (o.kind = .fragmentFor ∧ slot = none ∨ o.kind ≠ .fragmentFor ∧ ∃ r, slot = some r ∧
        settle (generate m o signature config none) = .ok r) := by
  rw [firstPhase, mapM_eq_ok] at h
  obtain ⟨slot, rest, hslot, hrest, rfl⟩ := List.forall₂_cons_left_iff.1 h
  refine ⟨slot, rest, rfl, mapM_eq_ok.2 hrest, ?_⟩
  split at hslot
  · rename_i hkind
    cases hslot
    exact .inl ⟨hkind, rfl⟩
  · rename_i hkind
    obtain ⟨r, hr, hslot⟩ := bind_eq_ok.1 hslot
    cases hslot
    exact .inr ⟨hkind, r, rfl, hr⟩

/-- A broken contract of the first pass is that of an offload. -/
theorem firstPhase_eq_error {f : Fault} (h : firstPhase m signature config os = .error f) :
    ∃ o ∈ os, o.kind ≠ .fragmentFor ∧ generate m o signature config none = .error (.fault f) := by
  obtain ⟨o, ho, hslot⟩ := exists_of_mapM_eq_error h
  split at hslot
  · cases hslot
  · rename_i hkind
    rcases bind_eq_error.1 hslot with hsettle | ⟨_, -, hslot⟩
    · exact ⟨o, ho, hkind, settle_eq_error.1 hsettle⟩
    · cases hslot

/-- The closest vertex task among the outcomes is the one that is handed on. -/
theorem vertexTask?_cons {previous : Option Task} {r : Except CodegenError Task}
    (h : settle (generate m o signature config previous) = .ok r) :
    vertexTask? (some r :: before) = handOn (vertexTask? before) o r := by
  cases r with
  | error e => rfl
  | ok t => rw [vertexTask?, generate_kind (settle_eq_ok.1 h), handOn]

/-- **The second pass is the loop that goes on behind errors.** -/
theorem secondPhase_eq_outcomes (hfirst : firstPhase m signature config os = .ok first) :
    secondPhase m signature config before os first =
      outcomes m signature config (vertexTask? before) os := by
  induction os generalizing before first with
  | nil =>
    cases hfirst
    rfl
  | cons o os ih =>
    obtain ⟨slot, rest, rfl, hrest, hslot⟩ := firstPhase_cons hfirst
    rw [outcomes]
    rcases hslot with ⟨hkind, rfl⟩ | ⟨hkind, r, rfl, hr⟩
    · rw [secondPhase, if_pos hkind]
      cases hr : settle (generate m o signature config (vertexTask? before)) with
      | error f => rfl
      | ok r =>
        rw [ok_bind, ok_bind, ← vertexTask?_cons hr, ← ih hrest]
    · rw [secondPhase, if_neg hkind, hr, ih hrest, vertexTask?_cons hr]
      rfl

/-- **Both loops report the same**, if no contract is broken: they differ only behind a failure. -/
theorem outcomes_sequence (h : outcomes m signature config vertex os = .ok rs) :
    orError (rs.mapM id) = sequence m signature config vertex os := by
  induction os generalizing vertex rs with
  | nil =>
    cases h
    rfl
  | cons o os ih =>
    obtain ⟨r, hr, h⟩ := bind_eq_ok.1 h
    obtain ⟨rest, hrest, h⟩ := bind_eq_ok.1 h
    cases h
    have htail := ih hrest
    rw [sequence, mapM_cons, settle_eq_ok.1 hr]
    cases r with
    | error e => rfl
    | ok t =>
      show orError (rest.mapM id >>= fun ts => .ok (t :: ts)) =
        sequence m signature config (handOn vertex o (.ok t)) os >>= fun ts => .ok (t :: ts)
      rw [← htail]
      cases rest.mapM id <;> rfl

/-- Without a broken contract the loops are one. -/
theorem through_eq_sequence (h : ∀ f, through m signature config vertex os ≠ .error (.fault f)) :
    through m signature config vertex os = sequence m signature config vertex os := by
  unfold through at h ⊢
  cases hrs : outcomes m signature config vertex os with
  | error f => exact absurd (by rw [hrs]; rfl) (h f)
  | ok rs => exact outcomes_sequence hrs

/-! ## Where a loop fails -/

/-- A task that can be handed on is that of a vertex stage of the module. -/
def IsVertex (m : Module) (signature : Signature) (config : Config) (vertex : Option Task) : Prop :=
  ∀ t, vertex = some t →
    ∃ v ∈ m.groups, v.kind = .vertexFor ∧ generate m v signature config none = .ok t

/-- What an offload starts from: nothing, or a vertex stage if it is a fragment stage. -/
def Follows (m : Module) (signature : Signature) (config : Config) (previous : Option Task)
    (o : Offload) : Prop :=
  IsVertex m signature config previous ∧ (o.kind ≠ .fragmentFor → previous = none)

theorem IsVertex.none : IsVertex m signature config none := nofun

theorem Follows.none (o : Offload) : Follows m signature config none o :=
  ⟨.none, fun _ => rfl⟩

theorem IsVertex.follows (h : IsVertex m signature config vertex) (o : Offload) :
    Follows m signature config (if o.kind = .fragmentFor then vertex else Option.none) o := by
  by_cases hkind : o.kind = .fragmentFor
  · rw [if_pos hkind]
    exact ⟨h, fun hne => absurd hkind hne⟩
  · rw [if_neg hkind]
    exact .none o

/-- One more offload is passed. -/
theorem IsVertex.handOn {r : Except CodegenError Task} (h : IsVertex m signature config vertex)
    (ho : o ∈ m.groups) (hr : generate m o signature config
      (if o.kind = .fragmentFor then vertex else Option.none) = orError r) :
    IsVertex m signature config (handOn vertex o r) := by
  cases r with
  | error e => exact h
  | ok t =>
    rw [Compile.handOn]
    split
    · rename_i hkind
      rintro _ ⟨⟩
      rw [if_neg (by simp [hkind])] at hr
      exact ⟨o, ho, hkind, hr⟩
    · exact h

/-- A loop fails at its first offload, or behind it. -/
theorem through_cons_eq_error {halt : Halt}
    (h : through m signature config vertex (o :: os) = .error halt) :
    generate m o signature config (if o.kind = .fragmentFor then vertex else none) = .error halt ∨
      ∃ r, generate m o signature config (if o.kind = .fragmentFor then vertex else none) =
          orError r ∧ through m signature config (handOn vertex o r) os = .error halt := by
  unfold through at h ⊢
  cases hr : settle (generate m o signature config
      (if o.kind = .fragmentFor then vertex else none)) with
  | error f =>
    simp only [outcomes, hr, bind, Except.bind, orFault] at h
    cases h
    exact .inl (settle_eq_error.1 hr)
  | ok r =>
    have hgenerate := settle_eq_ok.1 hr
    cases hrest : outcomes m signature config (handOn vertex o r) os with
    | error f =>
      simp only [outcomes, hr, hrest, bind, Except.bind, orFault] at h
      exact .inr ⟨r, hgenerate, by rw [hrest]; exact h⟩
    | ok rest =>
      simp only [outcomes, hr, hrest, bind, Except.bind, orFault, mapM_cons] at h
      cases r with
      | error e =>
        cases h
        exact .inl hgenerate
      | ok t =>
        refine .inr ⟨.ok t, hgenerate, ?_⟩
        rw [hrest]
        show orError (rest.mapM id) = .error halt
        cases hts : rest.mapM id with
        | error e =>
          simp only [hts, id_eq] at h
          exact h
        | ok ts => simp [hts, orError, pure, Except.pure] at h

/-- **A loop fails where generating an offload fails.** -/
theorem through_eq_error {halt : Halt} (hos : ∀ o ∈ os, o ∈ m.groups)
    (hvertex : IsVertex m signature config vertex)
    (h : through m signature config vertex os = .error halt) :
    ∃ o ∈ os, ∃ previous, Follows m signature config previous o ∧
      generate m o signature config previous = .error halt := by
  induction os generalizing vertex with
  | nil => cases h
  | cons o os ih =>
    obtain ⟨ho, hos⟩ := forall_mem_cons.1 hos
    rcases through_cons_eq_error h with hhere | ⟨r, hr, hrest⟩
    · exact ⟨o, mem_cons_self, _, hvertex.follows o, hhere⟩
    · obtain ⟨q, hq, hfails⟩ := ih hos (hvertex.handOn ho hr) hrest
      exact ⟨q, mem_cons_of_mem o hq, hfails⟩

theorem sequence_cons_eq_ok
    (h : sequence m signature config vertex (o :: os) = .ok ts) :
    ∃ t rest, ts = t :: rest ∧
      generate m o signature config (if o.kind = .fragmentFor then vertex else none) = .ok t ∧
      sequence m signature config (if o.kind = .vertexFor then some t else vertex) os =
        .ok rest := by
  obtain ⟨t, ht, h⟩ := bind_eq_ok.1 h
  obtain ⟨rest, hrest, h⟩ := bind_eq_ok.1 h
  cases h
  exact ⟨t, rest, rfl, ht, hrest⟩

/-- **One task per offload.** -/
theorem sequence_forall₂ (h : sequence m signature config vertex os = .ok ts) :
    List.Forall₂ (fun o t => ∃ previous, generate m o signature config previous = .ok t) os ts := by
  induction os generalizing vertex ts with
  | nil =>
    cases h
    exact .nil
  | cons o os ih =>
    obtain ⟨t, rest, rfl, ht, hrest⟩ := sequence_cons_eq_ok h
    exact .cons ⟨_, ht⟩ (ih hrest)

/-- The latest vertex stage of a list of tasks. -/
def latestVertex (ts : List Task) : Option Task := ts.reverse.find? fun t => t.kind = .vertexFor

/-- **Where a task comes from**: its offload, after the latest vertex stage if it is a fragment. -/
theorem sequence_split {before after : List Task} {t : Task}
    (h : sequence m signature config vertex os = .ok (before ++ t :: after)) :
    ∃ past o future, os = past ++ o :: future ∧ past.length = before.length ∧
      generate m o signature config
        (if o.kind = .fragmentFor then (latestVertex before).or vertex else none) = .ok t := by
  induction before generalizing os vertex with
  | nil =>
    cases os with
    | nil => cases h
    | cons o os =>
      obtain ⟨t', rest, heq, ht, -⟩ := sequence_cons_eq_ok h
      cases heq
      exact ⟨[], o, os, rfl, rfl, ht⟩
  | cons u before ih =>
    cases os with
    | nil => cases h
    | cons o os =>
      obtain ⟨u', rest, heq, hu, hrest⟩ := sequence_cons_eq_ok h
      cases heq
      obtain ⟨past, o', future, rfl, hlength, ht⟩ := ih hrest
      refine ⟨o :: past, o', future, rfl, by simp [hlength], ?_⟩
      have hlatest : (latestVertex (u :: before)).or vertex =
          (latestVertex before).or (if o.kind = .vertexFor then some u else vertex) := by
        rw [latestVertex, reverse_cons, List.find?_append, ← latestVertex, Option.or_assoc]
        by_cases hkind : o.kind = .vertexFor
        · rw [if_pos hkind, List.find?_singleton, if_pos (by simp [generate_kind hu, hkind])]
          rfl
        · rw [if_neg hkind, List.find?_singleton, if_neg (by simp [generate_kind hu, hkind])]
          rfl
      rw [hlatest]
      exact ht

end Compile

/-- A partition is the groups. -/
theorem offloads_of_partition {offloads : List Offload} (h : m.partition = .ok offloads) :
    offloads = m.groups := by
  obtain ⟨⟨⟩, -, h⟩ := bind_eq_ok.1 h
  exact (Except.ok.inj h).symm

/-- **How compiling goes**: the partition fails, a contract is broken, or it is one loop. -/
theorem compile_cases (m : Module) (signature : Signature) (config : Config) :
    (∃ halt, m.partition = .error halt ∧ compile m signature config = .error halt) ∨
      m.partition = .ok m.groups ∧
        ((∃ f, Compile.firstPhase m signature config m.groups = .error f ∧
            compile m signature config = .error (.fault f)) ∨
          compile m signature config =
            Compile.through m signature config none m.groups >>=
              fun ts => .ok ⟨ts, signature⟩) := by
  unfold compile
  cases hpartition : m.partition with
  | error halt => exact .inl ⟨halt, rfl, rfl⟩
  | ok offloads =>
    obtain rfl := offloads_of_partition hpartition
    refine .inr ⟨rfl, ?_⟩
    cases hfirst : Compile.firstPhase m signature config m.groups with
    | error f =>
      refine .inl ⟨f, rfl, ?_⟩
      simp only [ok_bind, hfirst, orFault]
      rfl
    | ok first =>
      refine .inr ?_
      simp only [ok_bind, hfirst, orFault, Compile.secondPhase_eq_outcomes hfirst, vertexTask?,
        Compile.through]
      cases Compile.outcomes m signature config none m.groups <;> rfl

/-- **A kernel was compiled in order**, whichever pass its tasks come from. -/
theorem compileInOrder_of_compile {kernel : Kernel} (h : compile m signature config = .ok kernel) :
    m.partition = .ok m.groups ∧
      Compile.sequence m signature config none m.groups = .ok kernel.tasks := by
  rcases compile_cases m signature config with ⟨halt, -, hc⟩ | ⟨hpartition, ⟨f, -, hc⟩ | hc⟩
  · cases hc.symm.trans h
  · cases hc.symm.trans h
  · obtain ⟨ts, hts, hkernel⟩ := bind_eq_ok.1 (hc.symm.trans h)
    cases hkernel
    refine ⟨hpartition, ?_⟩
    rw [← Compile.through_eq_sequence (by simp [hts])]
    exact hts

/-- **A kernel has a generated task for every offload.** -/
theorem compile_eq_ok {kernel : Kernel} (h : compile m signature config = .ok kernel) :
    m.partition = .ok m.groups ∧
      List.Forall₂ (fun o t => ∃ previous, generate m o signature config previous = .ok t)
        m.groups kernel.tasks :=
  (compileInOrder_of_compile h).imp_right Compile.sequence_forall₂

/-- **Compiling fails in the partition, or in generating an offload.** -/
theorem compile_eq_error {halt : Halt} (h : compile m signature config = .error halt) :
    m.partition = .error halt ∨ m.partition = .ok m.groups ∧
      ∃ o ∈ m.groups, ∃ previous, Compile.Follows m signature config previous o ∧
        generate m o signature config previous = .error halt := by
  rcases compile_cases m signature config with ⟨e, hpartition, hc⟩ | ⟨hpartition, hc⟩
  · cases hc.symm.trans h
    exact .inl hpartition
  refine .inr ⟨hpartition, ?_⟩
  rcases hc with ⟨f, hfirst, hc⟩ | hc
  · cases hc.symm.trans h
    obtain ⟨o, ho, -, hgenerate⟩ := Compile.firstPhase_eq_error hfirst
    exact ⟨o, ho, none, .none o, hgenerate⟩
  · rcases bind_eq_error.1 (hc.symm.trans h) with hthrough | ⟨_, -, hts⟩
    · exact Compile.through_eq_error (fun o ho => ho) .none hthrough
    · cases hts

end WgslKernel
