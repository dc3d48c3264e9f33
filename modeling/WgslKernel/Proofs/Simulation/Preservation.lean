import WgslKernel.Proofs.Codegen.Program
import WgslKernel.Proofs.Simulation.Blocks

/-!
# Semantic preservation

`Preserves` says of a piece of generated code that it follows the outline it was generated from.
There is one lemma for each way a walk treats a statement.  At the level of offloads two
interpreters are compared that know nothing of the generator.
-/

namespace WgslKernel

open List

namespace Codegen

variable {ctx : Context} {st st' : State} {s : Stmt} {l : Lowering}
  {walked visible around : List StmtId} {iter : StmtId → Int32} {inv : Invocation} {fuel : Nat}
  {f : Frame} {store : Store} {x : StmtId}

/-- **A statement that owns no blocks does in the shader what it does in the kernel.** -/
theorem Lowers.simulates (hl : Lowers ctx st.values s l) (happly : st.apply s.id l = .ok st')
    (h : Standing ctx st.values s walked visible around)
    (hag : Agrees ctx st.values visible around iter f.env store.locals)
    (hmem : f.memory = store.memory) (inv : Invocation) (fuel : Nat) :
    Simulates (Follows ctx st'.values (s.id :: visible) around [s.id] iter f store)
      (s.kind.perform s.id f) (l.code.exec inv fuel store) := by
  have hint := h.integral
  rw [(apply_values happly).1]
  cases hl with
  | const hkind => exact h.simulates_const hag hmem hkind
  | counter hkind _ hin => exact h.simulates_loopIndex hag hmem hkind hin
  | gridIndex _ hgrid =>
    rw [h.grid] at hgrid
    cases hgrid
  | argLoad hkind _ htype => exact h.simulates_argLoad hag hmem hkind htype
  | unary hkind hv _ he htype => exact h.simulates_unary hag hmem hkind hv he htype
  | binary hkind ha hb _ hn he htype => exact h.simulates_binary hag hmem hkind ha hb hn he htype
  | exitLoop hkind => exact h.simulates_exitLoop hag hmem hkind
  | nextIteration hkind => exact h.simulates_nextIteration hag hmem hkind
  | alloca hkind htype => exact h.simulates_alloca hag hmem hkind htype
  | localLoad hkind hvar htype => exact h.simulates_localLoad hag hmem hkind hvar htype
  | localStore hkind hvar hv heq => exact h.simulates_localStore hag hmem hkind hvar hv heq
  | globalPtr hkind hstrides hterms hbase htype =>
    exact h.simulates_globalPtr hag hmem hkind hstrides hterms hbase htype
  | globalLoad hkind hfield hindex htype =>
    exact h.simulates_globalLoad hag hmem hkind hfield hindex htype
  | globalStore hkind hfield _ hv heq hindex =>
    exact h.simulates_globalStore hag hmem hkind hfield hv heq hindex
  | temporary hkind _ hword => exact h.simulates_temporary hag hmem hkind hword
  | temporaryLoad hkind hslot htype => exact h.simulates_temporaryLoad hag hmem hkind hslot htype
  | temporaryStore hkind _ hslot hv heq =>
    exact h.simulates_temporaryStore hag hmem hkind hslot hv heq
  | ret hkind _ _ hwords => exact h.simulates_ret hag hmem hkind hwords
  | _ =>
    -- Everything else works on floats, atomics or stages.
    rw [‹s.kind = _›] at hint
    exact absurd hint Bool.false_ne_true

/-! ## Whole walks -/

/-- Code of a branch: the two sides are entered alike, whether the second is written or not. -/
theorem exec_branchCode {e : Expr} {second : Outline} {yes no tail : Code}
    (hempty : second.isEmpty = true → no = .done) (inv : Invocation) (fuel : Nat) (store : Store) :
    (branchCode e second yes no tail).exec inv fuel store = e.holds inv store >>= fun p =>
      (if p then Code.once (yes.exec inv fuel) store
        else Code.once (no.exec inv fuel) store).andThen (tail.exec inv fuel) := by
  unfold branchCode
  split
  · rename_i h
    rw [Code.exec, hempty h]
    simp [Code.once_eq, Code.exec]
  · rw [Code.exec]

theorem first_exec (x : StmtId) (stop : Expr) (inv : Invocation) (store : Store) :
    (serialLoop x stop).first.exec inv store =
      .done (.next, store.declare (.counter x) true (.int 0)) := by
  simp [serialLoop, LoopHeader.first, Line.exec, Datum.typed]

/-- The code of an outline follows the outline, from wherever the names in scope agree with it. -/
def Preserves (ctx : Context) (inv : Invocation) (fuel : Nat) (st : State) (o : Outline)
    (st' : State) (code : Code) : Prop :=
  ∀ {walked visible around : List StmtId} {iter : StmtId → Int32} {f : Frame} {store : Store},
    o.Placed ctx.module walked visible around → Tabled ctx st.values walked visible around →
    (∀ s ∈ o.stmts, ctx.module.isIntegral s.kind = true) → f.memory = store.memory →
    Agrees ctx st.values visible around iter f.env store.locals →
    Simulates (Follows ctx st'.values visible around o.ids iter f store) (o.run fuel f)
      (code.exec inv fuel store)

section Steps

variable {st₁ st₂ st₃ : State} {first second rest : Outline} {tail : Code}
  (hgrid : ctx.gridLoop = none)
  (hadmitted : ∀ (i : Nat) (s : Stmt), ctx.module.stmts[i]? = some s →
    ctx.module.Admits s.block s.kind)

include hgrid hadmitted

/-- A lowered statement is followed. -/
theorem Preserves.leaf (hkind : s.kind.childBlocks = []) (hlower : lower ctx st.values s = .ok l)
    (happly : st.apply s.id l = .ok st₁) (hwalk : Walks ctx st₁ rest st₂ tail)
    (hrest : Preserves ctx inv fuel st₁ rest st₂ tail) :
    Preserves ctx inv fuel st (.cons s first second rest) st₂ (l.code ++ tail) := by
  intro walked visible around iter f store hplaced htab hint hmem hag
  cases hplaced with
  | cons found fresh scope inside hfirst hsecond hplaced =>
    obtain ⟨hint, -, -, hintRest⟩ := Outline.forall_stmts_cons.1 hint
    have hstand : Standing ctx st.values s walked visible around :=
      ⟨htab, hgrid, found, fresh, scope, inside, hadmitted _ _ found, hint⟩
    have hlowers := lowers_of_lower hkind hlower
    have htab' := ((htab.leaf hlowers happly fresh inside hstand.admits).more first.ids).more
      second.ids
    rw [Outline.run_leaf hkind, Code.exec_append]
    refine Follows.andThen (hlowers.simulates happly hstand hag hmem inv fuel)
      (fun _ _ => hrest hplaced htab' hintRest)
      (fun y hy => mem_cons_of_mem _ hy)
      (fun y hy => htab'.unchanged hplaced hwalk y (mem_cons_of_mem _ hy))
      (by simp) (fun y hy => by simp [hy])

/-- A branch is followed. -/
theorem Preserves.branch {cond : StmtId} {b₁ b₂ : BlockId} {e : Expr} {yes no : Code}
    (hkind : s.kind = .branch cond b₁ b₂)
    (hcond : branchCondition ctx st.values s.id cond = .ok e)
    (hwfirst : Walks ctx st first st₁ yes) (hwsecond : Walks ctx st₁ second st₂ no)
    (hwrest : Walks ctx st₂ rest st₃ tail) (hfirst : Preserves ctx inv fuel st first st₁ yes)
    (hsecond : Preserves ctx inv fuel st₁ second st₂ no)
    (hrest : Preserves ctx inv fuel st₂ rest st₃ tail) :
    Preserves ctx inv fuel st (.cons s first second rest) st₃
      (branchCode e second yes no tail) := by
  intro walked visible around iter f store hplaced htab hint hmem hag
  cases hplaced with
  | cons found fresh scope inside hpfirst hpsecond hprest =>
    obtain ⟨hint, hintFirst, hintSecond, hintRest⟩ := Outline.forall_stmts_cons.1 hint
    have hstand : Standing ctx st.values s walked visible around :=
      ⟨htab, hgrid, found, fresh, scope, inside, hadmitted _ _ found, hint⟩
    have hkind? : ∀ kind, ctx.module.kind? s.id = some kind → kind.isLoop = false := by
      intro kind h
      rw [hstand.kind?, hkind] at h
      cases h
      rfl
    have hplays : ¬ ctx.module.Plays s.id .rangeFor :=
      not_plays_rangeFor found (by simp [hkind])
    -- The tables before and after each side, seen from inside and from behind.
    have htabFirst := htab.enter fresh
    have htabSecond := htabFirst.walk hpfirst hwfirst
    have htabRest := ((htab.pass fresh).walk hpfirst hwfirst).walk hpsecond hwsecond
    have hvfirst := htabFirst.unchanged hpfirst hwfirst
    have hvsecond := htabSecond.unchanged hpsecond hwsecond
    have hag₀ := hag.pass hstand.lookup_none
    have hag₁ : Agrees ctx st₁.values (s.id :: visible) around iter f.env store.locals :=
      hag₀.narrow (fun _ hy => hy) (fun _ hy => hy) (fun _ _ _ => rfl) hvfirst
    obtain ⟨item, p, hitem, hnonzero, hholds⟩ := hstand.branchCondition hag hkind hcond inv
    have hsides : Simulates (Follows ctx st₂.values (s.id :: visible) around
        (first.ids ++ second.ids) iter f store)
        (if p then first.run fuel f else second.run fuel f)
        (if p then Code.once (yes.exec inv fuel) store
          else Code.once (no.exec inv fuel) store) := by
      cases p with
      | true =>
        refine (hfirst hpfirst htabFirst hintFirst hmem
          (hag₀.enter hplays)).map_right fun a b hab => ?_
        exact hab.once hkind? htabRest hgrid hvsecond (fun y hy hmem =>
          htabFirst.notMem hpfirst y hmem hy) (by simp)
      | false =>
        refine (hsecond hpsecond htabSecond hintSecond hmem
          (hag₁.enter hplays)).map_right fun a b hab => ?_
        exact hab.once hkind? htabRest hgrid (fun _ _ => rfl) (fun y hy hmem =>
          htabSecond.notMem hpsecond y hmem hy) (by simp)
    rw [Outline.run_branch hkind, exec_branchCode hwsecond.done_of_isEmpty, hitem, Run.done_bind,
      hnonzero, Run.done_bind, hholds, Run.done_bind]
    refine Follows.andThen hsides
      (fun _ _ => hrest hprest htabRest hintRest)
      (fun y hy => mem_cons_of_mem _ hy)
      (fun y hy => htabRest.unchanged hprest hwrest y (mem_cons_of_mem _ hy))
      ?_ (fun y hy => by simp [hy])
    intro y hy
    rcases mem_append.1 hy with hy | hy <;> simp [hy]

/-- A loop is followed. -/
theorem Preserves.loop {b : BlockId} {body : Code} (hkind : s.kind = .whileTrue b)
    (hwfirst : Walks ctx st first st₁ body)
    (hfirst : Preserves ctx inv fuel st first st₁ body)
    (hrest : Preserves ctx inv fuel st₁ rest st₂ tail) :
    Preserves ctx inv fuel st (.cons s first second rest) st₂ (.loop body tail) := by
  intro walked visible around iter f store hplaced htab hint hmem hag
  cases hplaced with
  | cons found fresh scope inside hpfirst hpsecond hprest =>
    obtain ⟨hint, hintFirst, -, hintRest⟩ := Outline.forall_stmts_cons.1 hint
    have hstand : Standing ctx st.values s walked visible around :=
      ⟨htab, hgrid, found, fresh, scope, inside, hadmitted _ _ found, hint⟩
    have hplays : ¬ ctx.module.Plays s.id .rangeFor :=
      not_plays_rangeFor found (by simp [hkind])
    have htabFirst := htab.enter fresh
    have htabRest := ((htab.pass fresh).walk hpfirst hwfirst).more second.ids
    have hvfirst := htabFirst.unchanged hpfirst hwfirst
    have hloop := simulates_repeats (htab.pass fresh) hgrid (hag.pass hstand.lookup_none) hmem fuel
      hplays (fun _ _ => hfirst hpfirst htabFirst hintFirst)
      (fun y hy => (hvfirst y hy).symm) (fun y hy hmem => htabFirst.notMem hpfirst y hmem hy)
    rw [Outline.run_whileTrue hkind, Code.exec]
    refine hloop.bind fun f' store' h => ?_
    have h' := h.narrow (fun _ hy => hy) hvfirst (fun _ hy => hy)
    refine (hrest hprest htabRest hintRest h'.memory h'.agrees).mono
      fun c d hcd => ?_
    exact h'.trans hcd (fun y hy => mem_cons_of_mem _ hy) (by simp) (fun y hy => by simp [hy])

/-- A counting loop is followed. -/
theorem Preserves.count {bound : RangeBound} {serial : Bool} {b : BlockId} {stop : Expr}
    {body : Code} (hkind : s.kind = .rangeFor bound serial b)
    (hstop : loopBound ctx st.values s.id bound = .ok stop)
    (hwfirst : Walks ctx st first st₁ body)
    (hfirst : Preserves ctx inv fuel st first st₁ body)
    (hrest : Preserves ctx inv fuel st₁ rest st₂ tail) :
    Preserves ctx inv fuel st (.cons s first second rest) st₂
      (.countLoop (serialLoop s.id stop) body tail) := by
  intro walked visible around iter f store hplaced htab hint hmem hag
  cases hplaced with
  | cons found fresh scope inside hpfirst hpsecond hprest =>
    obtain ⟨hint, hintFirst, -, hintRest⟩ := Outline.forall_stmts_cons.1 hint
    have hstand : Standing ctx st.values s walked visible around :=
      ⟨htab, hgrid, found, fresh, scope, inside, hadmitted _ _ found, hint⟩
    have hplays : ctx.module.Plays s.id .rangeFor := ⟨_, hkind ▸ hstand.kind?, rfl⟩
    have htabFirst := htab.enter fresh
    have htabRest := ((htab.pass fresh).walk hpfirst hwfirst).more second.ids
    have hvfirst := htabFirst.unchanged hpfirst hwfirst
    have hids : ∀ y ∈ s.id :: first.ids, y ∉ walked := by
      intro y hy hwalked
      rcases mem_cons.1 hy with rfl | hy
      · exact fresh hwalked
      · exact hpfirst.notMem hy (mem_cons_of_mem _ hwalked)
    have hfresh : ∀ y ∈ s.id :: first.ids, y ∉ visible := fun y hy hmem =>
      hids y hy (htab.walked_of_visible hmem)
    obtain ⟨n, hcount, hbound⟩ := hstand.loopBound hag hkind hstop inv
    have hloop := simulates_count htab hgrid hag hmem fuel fresh hplays
      (fun hmem => hpfirst.notMem hmem mem_cons_self) (fun _ hy => hy)
      (fun f' store' hag' hkeeps => hbound f' store' hag' fun hy =>
        hkeeps fun hmem => hids _ hmem hy)
      (fun _ _ _ => hfirst hpfirst htabFirst hintFirst)
      (fun y hy => (hvfirst y (mem_cons_of_mem _ hy)).symm) hfresh
    rw [Outline.run_rangeFor hkind, hcount, Run.done_bind, Code.exec, first_exec, Run.done_bind]
    refine hloop.bind fun p store' h => ?_
    -- Behind the loop its counter is gone, and the statement has no entry.
    have hleft := (Follows.refl hag hmem).turn (fun _ hw => hw) h htab hgrid (fun _ hy => hy)
      (fun _ hy => hy) (fun _ _ _ => rfl) (fun _ _ => rfl) hfresh (fun _ hy => hy)
    have h' := hleft.pass hstand.lookup_none hvfirst
    refine (hrest hprest htabRest hintRest h'.memory h'.agrees).mono
      fun c d hcd => ?_
    refine h'.trans hcd (fun y hy => mem_cons_of_mem _ hy) ?_ (fun y hy => by simp [hy])
    intro y hy
    rcases mem_cons.1 hy with rfl | hy <;> simp [*]

/-- **The code of a walk follows the outline that was walked.** -/
theorem Walks.preserves {o : Outline} {code : Code} (h : Walks ctx st o st' code)
    (inv : Invocation) (fuel : Nat) : Preserves ctx inv fuel st o st' code := by
  induction h with
  | nil => exact fun _ _ _ hmem hag => .refl hag hmem
  | branch hkind hcond hfirst hsecond hrest ihFirst ihSecond ihRest =>
    exact Preserves.branch hgrid hadmitted hkind hcond hfirst hsecond hrest ihFirst ihSecond ihRest
  | loop hkind hfirst _ ihFirst ihRest =>
    exact Preserves.loop hgrid hadmitted hkind hfirst ihFirst ihRest
  | count hkind hstop hfirst _ ihFirst ihRest =>
    exact Preserves.count hgrid hadmitted hkind hstop hfirst ihFirst ihRest
  | leaf hkind hlower happly hrest ihRest =>
    exact Preserves.leaf hgrid hadmitted hkind hlower happly hrest ihRest

end Steps

/-! ## Whole offloads -/

/-- Nothing is known before a walk but the constants. -/
theorem agrees_constants : Agrees ctx [] [] [] iter ctx.module.constants [] where
  consts hc := by rw [Module.constants, hc]
  entry hx := absurd hx not_mem_nil
  counter hx := absurd hx not_mem_nil

/-- Integer kernels draw no random numbers. -/
theorem isRandom_of_isIntegral {m : Module} {kind : Kind} (h : m.isIntegral kind = true) :
    kind.isRandom = false := by
  cases kind with
  | rand => cases h
  | _ => rfl

theorem assemble_code {kind : OffloadKind} {d : Draft} (h : d.state.random = false) :
    (assemble ctx kind d).shader.prologue ++ (assemble ctx kind d).shader.body =
      Code.ofLines d.prologue ++ d.body := by
  simp [assemble, h]

/-- **The shader of a serial offload follows its kernel**, on all buffers and in any invocation. -/
theorem interpret_simulates {m : Module} {o : Offload} (hinv : m.Inv)
    (hadmitted : ∀ (i : Nat) (s : Stmt), m.stmts[i]? = some s → m.Admits s.block s.kind)
    (ho : o ∈ m.groups) (hkind : o.kind = .serial)
    (hint : ∀ s ∈ (m.outlineOf m.outline o.stmts).stmts, m.isIntegral s.kind = true)
    {signature : Signature} {config : Config} {previous : Option Task} {p : Program}
    (hp : program m o signature config previous = .ok p) (inv : Invocation) (fuel : Nat)
    (memory : Memory) :
    Simulates Eq (m.interpret o fuel memory) (p.shader.run inv fuel memory) := by
  obtain ⟨bindings, d, hd, rfl⟩ := program_eq_ok hp
  obtain ⟨st', code, hwalks, rfl⟩ := draft_serial hkind hd
  have hrandom : st'.random = false := by
    rw [hwalks.random_eq (Module.owned_outlineOf (Module.owned_outline m) o.stmts), Bool.false_or,
      any_eq_false]
    exact fun s hs => by simp [isRandom_of_isIntegral (hint s hs)]
  have hpreserves : Simulates (Follows (contextOf m o signature config previous) st'.values [] []
      (m.outlineOf m.outline o.stmts).ids (fun _ => 0) ⟨m.constants, memory⟩ ⟨[], memory⟩)
      ((m.outlineOf m.outline o.stmts).run fuel ⟨m.constants, memory⟩)
      (code.exec inv fuel ⟨[], memory⟩) :=
    hwalks.preserves rfl hadmitted inv fuel (hinv.placed_offload ho) (tabled_nil (by simp)) hint rfl
      agrees_constants
  rw [Module.interpret, Shader.run, assemble_code hrandom]
  refine hpreserves.bind fun a b hab => ?_
  obtain ⟨flow, f⟩ := a
  obtain ⟨flow', store⟩ := b
  -- There is no loop around an offload for control to leave.
  have hnext : flow = .next := by
    by_contra hne
    obtain ⟨x, hx, -⟩ := hab.inLoop hne
    exact absurd hx not_mem_nil
  subst hnext
  obtain rfl : Flow.next = flow' := hab.flow
  exact hab.memory

end Codegen

/-- **Semantic preservation.**  A shader that was generated for a serial offload of a module, with
integer statements only, computes what the offload computes: whatever the buffers hold, the kernel
has a meaning, and unless it divides by zero or leaves a buffer, the shader ends as the kernel ends,
with the same contents in every buffer and in the return block. -/
theorem generate_preserves_interpret {actions : List Action} {session : Session} {m : Module}
    {os : List Offload} {o : Offload} {members : List StmtId} {signature : Signature}
    {config : Config} {previous : Option Task} {t : Task}
    (hrun : Session.run {} actions = .ok session) (hfinish : session.builder.finish = .ok m)
    (hpartition : m.partition = .ok os) (ho : o ∈ os) (hkind : o.kind = .serial)
    (hnested : m.nested o.stmts = .ok members)
    (hint : ∀ i ∈ members, (m.kind? i).any m.isIntegral = true)
    (hgen : generate m o signature config previous = .ok t) :
    ∃ p, Codegen.program m o signature config previous = .ok p ∧ t = p.task o.kind signature ∧
      ∀ (inv : Invocation) (fuel : Nat) (memory : Memory),
        m.interpret o fuel memory ≠ .stuck ∧
        (m.interpret o fuel memory ≠ .fault →
          p.shader.run inv fuel memory = m.interpret o fuel memory) := by
  obtain ⟨p, hp, ht⟩ := bind_eq_ok.1 hgen
  cases ht
  obtain ⟨hinv, hadmitted⟩ := Session.inv_of_finish hrun hfinish
  have hgroups := Module.mem_groups_of_partition hpartition ho
  have hstmts : ∀ s ∈ (m.outlineOf m.outline o.stmts).stmts, m.isIntegral s.kind = true := by
    intro s hs
    have hmem := hint s.id ((Module.mem_nested hnested).2 (mem_map_of_mem hs))
    rw [Module.kind?, (hinv.placed_offload hgroups).found_of_mem hs] at hmem
    exact hmem
  exact ⟨p, hp, rfl, fun inv fuel memory =>
    (Codegen.interpret_simulates hinv hadmitted hgroups hkind hstmts hp inv fuel
      memory).eq_of_ne_fault⟩

/-- A kernel that adds up numbers below its argument, keeps the sum in a field and returns it. -/
def Session.sieve : List Action :=
  [.create (.argLoad .i32 0), .create (.localVar .i32), .create (.rangeFor (.value 0) true),
    .openGuard .rangeFor 2, .create (.loopIndex 2), .create (.const (.i32 3)),
    .create (.binary .mod 3 4), .create (.branch 5), .openGuard (.branch true) 6,
    .create (.localLoad 1), .create (.binary .add 7 3), .create (.localStore 1 8),
    .closeGuard 1, .closeGuard 0, .create (.localLoad 1), .create (.const (.i32 1)),
    .create (.globalPtr ⟨0, [4], .i32, 1, 0, 0, true⟩ [11] 0), .create (.globalStore 12 10),
    .create (.ret [10])]

/-- Buffers for the kernel, with five for its argument. -/
def Memory.sieve : Memory
  | .args => [5]
  | .rets => [0]
  | .root 0 => [0, 0, 0, 0]
  | _ => []

/-- The shader adds up 1, 2 and 4. -/
theorem generate_preserves_interpret_sieve :
    ∃ (session : Session) (m : Module) (o : Offload) (t : Task) (p : Codegen.Program)
      (result : Memory), Session.run {} Session.sieve = .ok session ∧
      session.builder.finish = .ok m ∧ m.partition = .ok [o] ∧
      generate m o ⟨4, 4⟩ {} none = .ok t ∧ t = p.task o.kind ⟨4, 4⟩ ∧
      (∀ inv, p.shader.run inv 9 .sieve = .done result) ∧
      result .rets = [7] ∧ result (.root 0) = [0, 7, 0, 0] := by
  have hkernel : ∃ session m o p members, Session.run {} Session.sieve = .ok session ∧
      session.builder.finish = .ok m ∧ m.partition = .ok [o] ∧ o.kind = .serial ∧
      m.nested o.stmts = .ok members ∧ (∀ i ∈ members, (m.kind? i).any m.isIntegral = true) ∧
      Codegen.program m o ⟨4, 4⟩ {} none = .ok p ∧ ∃ result, m.interpret o 9 .sieve = .done result ∧
      result .rets = [7] ∧ result (.root 0) = [0, 7, 0, 0] := by
    refine ⟨_, _, _, _, _, rfl, rfl, rfl, rfl, rfl, by decide, rfl, ?_⟩
    with_unfolding_all exact ⟨_, rfl, rfl, rfl⟩
  obtain ⟨session, m, o, p, members, hrun, hfinish, hpartition, hkind, hnested, hint, hp, result,
    hresult, hrets, hroot⟩ := hkernel
  have hgen : generate m o ⟨4, 4⟩ {} none = .ok (p.task o.kind ⟨4, 4⟩) := by
    rw [generate, hp]
    rfl
  obtain ⟨q, -, hq, hpreserves⟩ := generate_preserves_interpret hrun hfinish hpartition
    mem_cons_self hkind hnested hint hgen
  refine ⟨session, m, o, _, q, result, hrun, hfinish, hpartition, hgen, hq, fun inv => ?_, hrets,
    hroot⟩
  rw [(hpreserves inv 9 .sieve).2 (by simp [hresult]), hresult]

end WgslKernel
