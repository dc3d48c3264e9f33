import Mathlib.Computability.Language
import Mathlib.Order.CompletePartialOrder
import WgslKernel.Proofs.Buffers.Accesses

/-!
# What dispatches do to the temporaries

A model of dispatches that follows the words of the temporaries and leaves open what is computed: a
condition may turn out either way, and a line may put anything into a word that it writes.  Where a
shader has a meaning as a program on integers, its runs are such executions.
-/

namespace WgslKernel

open List

open scoped Computability

/-! ## What lines write -/

namespace Expr

/-- The words whose addresses are among the arguments of a call. -/
def addressed (args : List Expr) : List (Resource × Expr) :=
  args.flatMap fun
    | address e => e.accesses
    | _ => []

mutual

/-- The words an expression changes: those it hands to functions that do more than load. -/
def updates : Expr → List (Resource × Expr)
  | ident _ | lit _ => []
  | neg e | bitNot e | paren e | address e | select e _ => e.updates
  | binary _ lhs rhs => lhs.updates ++ rhs.updates
  | call callee args =>
    (if callee = .func .atomicLoad then [] else addressed args) ++ updatesOf args
  | index e i => e.updates ++ i.updates

/-- The words that arguments change. -/
def updatesOf : List Expr → List (Resource × Expr)
  | [] => []
  | e :: es => e.updates ++ updatesOf es

end

theorem addressed_subset (args : List Expr) : addressed args ⊆ accessesOf args := by
  induction args with
  | nil => exact List.Subset.refl _
  | cons e es ih =>
    have hhead : (addressed (e :: es)) = addressed [e] ++ addressed es := by simp [addressed]
    rw [hhead]
    refine append_subset.2 ⟨?_, List.Subset.trans ih (subset_append_right _ _)⟩
    cases e <;> simp [addressed]

mutual

/-- What is changed is touched. -/
theorem updates_subset : ∀ e : Expr, e.updates ⊆ e.accesses
  | ident _ | lit _ => List.Subset.refl _
  | neg e | bitNot e | paren e | address e | select e _ => updates_subset e
  | binary _ lhs rhs => append_subset.2
    ⟨List.Subset.trans (updates_subset lhs) (subset_append_left _ _),
      List.Subset.trans (updates_subset rhs) (subset_append_right _ _)⟩
  | call callee args => by
    refine append_subset.2 ⟨?_, updatesOf_subset args⟩
    split
    · exact nil_subset _
    · exact addressed_subset args
  | index e i => by
    rw [updates, accesses]
    refine append_subset.2 ⟨fun a ha => ?_, fun a ha => ?_⟩
    · exact mem_append_right _ (mem_append_left _ (updates_subset e ha))
    · exact mem_append_right _ (mem_append_right _ (updates_subset i ha))

theorem updatesOf_subset : ∀ es : List Expr, updatesOf es ⊆ accessesOf es
  | [] => List.Subset.refl _
  | e :: es => append_subset.2
    ⟨List.Subset.trans (updates_subset e) (subset_append_left _ _),
      List.Subset.trans (updatesOf_subset es) (subset_append_right _ _)⟩

end

end Expr

/-- The buffer of temporaries, plain or atomic: the host binds one buffer to both. -/
def Resource.isTemporaries (r : Resource) : Bool :=
  match r.kind with
  | .globalTmps | .globalTmpsAtomic => true
  | _ => false

theorem Resource.isBlock_of_isTemporaries {r : Resource} (h : r.isTemporaries = true) :
    r.isBlock = true := by
  unfold isTemporaries at h
  unfold isBlock
  cases hk : r.kind <;> simp_all

namespace Line

/-- How control goes on behind a line. -/
def flow : Line → Flow
  | exitLoop => .exit
  | nextIteration => .again
  | _ => .next

/-- The words that a line writes. -/
def writes : Line → List (Resource × Expr)
  | letBind _ _ e | declare _ _ (some e) | perform e => e.updates
  | assign target value => target.accesses ++ value.updates
  | declare _ _ none | exitLoop | nextIteration | discard => []

theorem writes_subset (l : Line) : l.writes ⊆ l.accesses := by
  cases l with
  | letBind _ _ e | perform e => exact e.updates_subset
  | declare _ _ value =>
    cases value with
    | none => exact List.Subset.refl _
    | some e => exact e.updates_subset
  | assign target value =>
    refine append_subset.2 ⟨subset_append_left _ _, ?_⟩
    exact List.Subset.trans value.updates_subset (subset_append_right _ _)
  | exitLoop | nextIteration | discard => exact List.Subset.refl _

/-- A line can write word `k` of the temporaries.  At a constant index it writes that word only. -/
def MayWrite (l : Line) (k : Nat) : Prop :=
  ∃ a ∈ l.writes, a.1.isTemporaries = true ∧ ∀ j : Nat, a.2 = .lit (.abstract j) → j = k

/-- What a line does to the temporaries: words that it does not write stay. -/
def Acts (l : Line) (words words' : Nat → Int32) : Prop :=
  ∀ k, ¬ l.MayWrite k → words' k = words k

theorem Acts.refl (l : Line) (words : Nat → Int32) : l.Acts words words := fun _ _ => rfl

/-- The line that names word `k` of the temporaries. -/
def load (name : Ident) (k : Nat) : Line :=
  .letBind name (some ⟨.i32, 1⟩) (.word .globalTmps (.lit (.abstract k)))

end Line

/-! ## Executions -/

/-- Lines at work, one after another. -/
inductive Executes : List Line → (Nat → Int32) → (Nat → Int32) → Prop where
  | nil (words : Nat → Int32) : Executes [] words words
  | cons {l : Line} {ls : List Line} {words words₁ words' : Nat → Int32}
    (head : l.Acts words words₁) (tail : Executes ls words₁ words') :
    Executes (l :: ls) words words'

namespace Executes

variable {ls ls' : List Line} {words words' : Nat → Int32} {k : Nat}

/-- **A word that no line writes stays what it was.** -/
theorem keeps (h : Executes ls words words') (hk : ∀ l ∈ ls, ¬ l.MayWrite k) :
    words' k = words k := by
  induction h with
  | nil => rfl
  | cons head _ ih =>
    obtain ⟨hl, hls⟩ := forall_mem_cons.1 hk
    rw [ih hls, head k hl]

/-- Executions one after another. -/
theorem append {words₁ : Nat → Int32} (h : Executes ls words words₁)
    (h' : Executes ls' words₁ words') : Executes (ls ++ ls') words words' := by
  induction h with
  | nil => exact h'
  | cons head _ ih => exact .cons head (ih h')

theorem split (h : Executes (ls ++ ls') words words') :
    ∃ words₁, Executes ls words words₁ ∧ Executes ls' words₁ words' := by
  induction ls generalizing words with
  | nil => exact ⟨words, .nil words, h⟩
  | cons l ls ih =>
    cases h with
    | cons head tail =>
      obtain ⟨words₁, hfirst, hrest⟩ := ih tail
      exact ⟨words₁, .cons head hfirst, hrest⟩

end Executes

/-! ## Paths -/

/-- Go on with `Q` behind `P`, unless control leaves `P` before. -/
def pathsThen (P Q : Flow → Language Line) (flow : Flow) : Language Line :=
  P .next * Q flow + if flow = .next then 0 else P flow

/-- A line by itself. -/
def Line.path (l : Line) (flow : Flow) : Language Line := if l.flow = flow then {[l]} else 0

namespace Code

/-- The sequences of lines that an invocation may go through in code, with how it leaves. -/
def paths : Code → Flow → Language Line
  | done => fun flow => if flow = .next then 1 else 0
  | line l rest => pathsThen l.path rest.paths
  | branch c yes rest => fun flow =>
    {[.perform c]} * (rest.paths flow + pathsThen yes.paths rest.paths flow)
  | branchElse c yes no rest => fun flow =>
    {[.perform c]} * (pathsThen yes.paths rest.paths flow + pathsThen no.paths rest.paths flow)
  | loop body rest => fun flow =>
    (body.paths .next + body.paths .again)∗ * body.paths .exit * rest.paths flow
  | countLoop h body rest => fun flow =>
    {[h.first]} * ({[.perform h.test]} * (body.paths .next + body.paths .again) * {[h.update]})∗ *
      ({[.perform h.test]} * (1 + body.paths .exit)) * rest.paths flow

/-- A path to the end of two pieces goes to the end of each. -/
theorem paths_append (c d : Code) : (c ++ d).paths .next = c.paths .next * d.paths .next := by
  induction c with
  | done => simp [paths]
  | line l rest ih => simp [paths, pathsThen, ih, mul_assoc]
  | branch c yes rest _ ih =>
    simp only [branch_append, paths, pathsThen, ih, if_true, add_zero, mul_assoc, add_mul]
  | branchElse c yes no rest _ _ ih =>
    simp only [branchElse_append, paths, pathsThen, ih, if_true, add_zero, mul_assoc, add_mul]
  | loop body rest _ ih => simp [paths, ih, mul_assoc]
  | countLoop h body rest _ ih => simp [paths, ih, mul_assoc]

end Code

section MadeOf

variable {P Q : Language Line} {F G : Flow → Language Line} {S : List Line} {flow : Flow} {l : Line}

/-- All sequences of a language are made of the lines `S`. -/
def MadeOf (S : List Line) (P : Language Line) : Prop := ∀ ls ∈ P, ls ⊆ S

theorem madeOf_zero : MadeOf S 0 := fun _ h => absurd h (Set.notMem_empty _)

theorem madeOf_one : MadeOf S 1 := fun ls h => by
  rw [(Language.mem_one ls).1 h]
  exact nil_subset _

theorem madeOf_singleton (h : l ∈ S) : MadeOf S {[l]} := fun ls hls => by
  obtain rfl : ls = [l] := hls
  exact cons_subset.2 ⟨h, nil_subset _⟩

theorem MadeOf.add (hP : MadeOf S P) (hQ : MadeOf S Q) : MadeOf S (P + Q) := fun ls h =>
  ((Language.mem_add P Q ls).1 h).elim (hP ls) (hQ ls)

theorem MadeOf.mul (hP : MadeOf S P) (hQ : MadeOf S Q) : MadeOf S (P * Q) := fun ls h => by
  obtain ⟨a, ha, b, hb, rfl⟩ := Language.mem_mul.1 h
  exact append_subset.2 ⟨hP a ha, hQ b hb⟩

theorem MadeOf.kstar (hP : MadeOf S P) : MadeOf S P∗ := fun ls h => by
  obtain ⟨turns, rfl, hturns⟩ := Language.mem_kstar.1 h
  intro l hl
  obtain ⟨t, ht, hl⟩ := mem_flatten.1 hl
  exact hP t (hturns t ht) hl

theorem madeOf_path (h : l ∈ S) : MadeOf S (l.path flow) := by
  unfold Line.path
  split
  · exact madeOf_singleton h
  · exact madeOf_zero

theorem madeOf_pathsThen (hF : ∀ flow, MadeOf S (F flow)) (hG : ∀ flow, MadeOf S (G flow)) :
    MadeOf S (pathsThen F G flow) := by
  refine ((hF .next).mul (hG flow)).add ?_
  split
  · exact madeOf_zero
  · exact hF flow

/-- **Paths are made of the lines of the code.** -/
theorem Code.madeOf_paths {c : Code} (h : c.lines ⊆ S) (flow : Flow) : MadeOf S (c.paths flow) := by
  induction c generalizing flow with
  | done =>
    unfold paths
    split
    · exact madeOf_one
    · exact madeOf_zero
  | line l rest ih =>
    obtain ⟨hl, hrest⟩ := cons_subset.1 h
    exact madeOf_pathsThen (fun _ => madeOf_path hl) (ih hrest)
  | branch c yes rest ihYes ihRest =>
    obtain ⟨hc, h⟩ := cons_subset.1 h
    obtain ⟨hyes, hrest⟩ := append_subset.1 h
    exact (madeOf_singleton hc).mul ((ihRest hrest flow).add
      (madeOf_pathsThen (ihYes hyes) (ihRest hrest)))
  | branchElse c yes no rest ihYes ihNo ihRest =>
    obtain ⟨hc, h⟩ := cons_subset.1 h
    obtain ⟨hyes, h⟩ := append_subset.1 h
    obtain ⟨hno, hrest⟩ := append_subset.1 h
    exact (madeOf_singleton hc).mul ((madeOf_pathsThen (ihYes hyes) (ihRest hrest)).add
      (madeOf_pathsThen (ihNo hno) (ihRest hrest)))
  | loop body rest ihBody ihRest =>
    obtain ⟨hbody, hrest⟩ := append_subset.1 h
    have hbody := ihBody hbody
    exact (((hbody .next).add (hbody .again)).kstar.mul (hbody .exit)).mul (ihRest hrest flow)
  | countLoop h' body rest ihBody ihRest =>
    obtain ⟨hfirst, h⟩ := cons_subset.1 h
    obtain ⟨htest, h⟩ := cons_subset.1 h
    obtain ⟨hupdate, h⟩ := cons_subset.1 h
    obtain ⟨hbody, hrest⟩ := append_subset.1 h
    have hbody := ihBody hbody
    have hturn := ((madeOf_singleton htest).mul ((hbody .next).add (hbody .again))).mul
      (madeOf_singleton hupdate)
    have hlast := (madeOf_singleton htest).mul (madeOf_one.add (hbody .exit))
    exact (((madeOf_singleton hfirst).mul hturn.kstar).mul hlast).mul (ihRest hrest flow)

end MadeOf

/-! ## Dispatches -/

/-- The lines of several invocations in one order, each of them in its own. -/
inductive Interleaves : List (List Line) → List Line → Prop where
  | done {threads : List (List Line)} (h : ∀ t ∈ threads, t = []) : Interleaves threads []
  | step {before after : List (List Line)} {t ls : List Line} {l : Line}
    (h : Interleaves (before ++ t :: after) ls) :
    Interleaves (before ++ (l :: t) :: after) (l :: ls)

/-- Interleaved lines come from a thread. -/
theorem Interleaves.exists_mem {threads : List (List Line)} {ls : List Line}
    (h : Interleaves threads ls) {l : Line} (hl : l ∈ ls) : ∃ t ∈ threads, l ∈ t := by
  induction h with
  | done => cases hl
  | @step before after t ls l' h ih =>
    rcases mem_cons.1 hl with rfl | hl
    · exact ⟨l :: t, by simp, mem_cons_self⟩
    · obtain ⟨u, hu, hlu⟩ := ih hl
      simp only [mem_append, mem_cons] at hu ⊢
      rcases hu with hu | rfl | hu
      · exact ⟨u, .inl hu, hlu⟩
      · exact ⟨l' :: u, .inr (.inl rfl), mem_cons_of_mem _ hlu⟩
      · exact ⟨u, .inr (.inr hu), hlu⟩

/-- One invocation by itself. -/
theorem Interleaves.eq_of_singleton {t ls : List Line} (h : Interleaves [t] ls) : ls = t := by
  generalize hthreads : [t] = threads at h
  induction h generalizing t with
  | done h => exact (h t (by simp [← hthreads])).symm
  | @step before after u ls l h ih =>
    cases before with
    | nil =>
      simp only [nil_append, List.cons.injEq] at hthreads
      obtain ⟨rfl, rfl⟩ := hthreads
      rw [ih rfl]
    | cons b before => simp at hthreads

namespace Codegen

/-- The lines of a dispatch: a compute shader has its invocations, and others any number. -/
def Program.Trace (p : Program) (ls : List Line) : Prop :=
  ∃ threads : List (List Line),
    (p.shader.stage = .compute → threads.length = p.shader.workgroupSize * p.numWorkgroups) ∧
    (∀ t ∈ threads, t ∈ (p.shader.prologue ++ p.shader.body).paths .next) ∧ Interleaves threads ls

/-- Traces are made of the lines of the shader. -/
theorem Program.Trace.mem_lines {p : Program} {ls : List Line} (h : p.Trace ls) {l : Line}
    (hl : l ∈ ls) : l ∈ p.shader.prologue.lines ∨ l ∈ p.shader.body.lines := by
  obtain ⟨threads, -, hpaths, hls⟩ := h
  obtain ⟨t, ht, hl⟩ := hls.exists_mem hl
  have hmem := Code.madeOf_paths (List.Subset.refl _) .next t (hpaths t ht) hl
  simpa using hmem

end Codegen

/-! ## Runs on integers -/

/-- The words of the temporaries in memory. -/
def Memory.temporaries (mem : Memory) (k : Nat) : Int32 := (mem .globalTmps).getD k 0

section Runs

variable {inv : Invocation} {st st' : Store} {flow : Flow} {l : Line} {fuel : Nat}
  {body rest : Store → Run (Flow × Store)} {F G : Flow → Language Line} {P Q : Language Line}
  {words words₁ words' : Nat → Int32}

theorem Memory.temporaries_write {mem mem' : Memory} {r : Resource} {i : Int} {w : Int32} {k : Nat}
    (h : mem.write r i w = .done mem') (hk : r = .globalTmps → i.toNat ≠ k) :
    mem'.temporaries k = mem.temporaries k := by
  unfold Memory.write at h
  split at h
  · cases h
    change (if Resource.globalTmps = r then (mem r).set i.toNat w else mem .globalTmps).getD k 0 = _
    by_cases hr : Resource.globalTmps = r
    · rw [if_pos hr, getD_eq_getElem?_getD, List.getElem?_set_ne (hk hr.symm), temporaries, hr,
        getD_eq_getElem?_getD]
    · rw [if_neg hr, temporaries]
  · cases h

/-- An assignment changes the word that it points to, and no other. -/
theorem Store.put_acts {target value : Expr} {d : Datum} (h : st.put inv target d = .done st') :
    (Line.assign target value).Acts st.memory.temporaries st'.memory.temporaries := by
  unfold put at h
  split at h
  · obtain ⟨locals, -, h⟩ := Run.bind_eq_done.1 h
    cases h
    exact .refl _ _
  · rename_i e i
    split at h
    · rename_i r w hbuffer
      obtain ⟨di, hdi, h⟩ := Run.bind_eq_done.1 h
      obtain ⟨j, hj, h⟩ := Run.bind_eq_done.1 h
      obtain ⟨memory, hwrite, h⟩ := Run.bind_eq_done.1 h
      cases h
      intro k hk
      refine Memory.temporaries_write hwrite fun hr => ?_
      subst hr
      rintro rfl
      refine hk ⟨(.globalTmps, i), ?_, rfl, fun n hn => ?_⟩
      · simp [Line.writes, Expr.accesses, hbuffer]
      · dsimp only at hn
        subst hn
        cases hdi
        cases hj
        rfl
    · cases h
  · cases h

/-- **What a line does on integers is among what it may do.** -/
theorem Line.acts_of_exec (h : l.exec inv st = .done (flow, st')) :
    l.flow = flow ∧ l.Acts st.memory.temporaries st'.memory.temporaries := by
  cases l with
  | letBind name type value =>
    obtain ⟨d, -, h⟩ := Run.bind_eq_done.1 h
    cases type with
    | some | none =>
      obtain ⟨d', -, h⟩ := Run.bind_eq_done.1 h
      cases h
      exact ⟨rfl, .refl _ _⟩
  | declare name type value =>
    cases value with
    | none =>
      cases h
      exact ⟨rfl, .refl _ _⟩
    | some e =>
      obtain ⟨d, -, h⟩ := Run.bind_eq_done.1 h
      obtain ⟨d', -, h⟩ := Run.bind_eq_done.1 h
      cases h
      exact ⟨rfl, .refl _ _⟩
  | assign target value =>
    obtain ⟨d, -, h⟩ := Run.bind_eq_done.1 h
    obtain ⟨st₁, hput, h⟩ := Run.bind_eq_done.1 h
    cases h
    exact ⟨rfl, Store.put_acts hput⟩
  | exitLoop | nextIteration =>
    cases h
    exact ⟨rfl, .refl _ _⟩
  | perform | discard => cases h

/-- What is loaded is the word. -/
theorem Line.load_exec {name : Ident} {k : Nat}
    (h : (load name k).exec inv st = .done (flow, st')) :
    st'.locals.get? name = some ⟨name, false, .int (st.memory.temporaries k)⟩ ∧
      st'.memory = st.memory := by
  obtain ⟨d, hd, h⟩ := Run.bind_eq_done.1 h
  obtain ⟨d', hd', h⟩ := Run.bind_eq_done.1 h
  cases h
  obtain ⟨di, hdi, hd⟩ := Run.bind_eq_done.1 hd
  cases hdi
  obtain ⟨j, hj, hd⟩ := Run.bind_eq_done.1 hd
  cases hj
  obtain ⟨w, hw, hd⟩ := Run.bind_eq_done.1 hd
  cases hd
  cases hd'
  refine ⟨?_, rfl⟩
  unfold Memory.read at hw
  split at hw
  · split at hw
    · rename_i v hv
      cases hw
      have hword : st.memory.temporaries k = w := by
        rw [Memory.temporaries, getD_eq_getElem?_getD]
        simp only [Int.toNat_natCast] at hv
        rw [hv, Option.getD_some]
      simp [Store.declare, Locals.get?, hword]
    · cases hw
  · cases hw

/-- A sequence of the language is executed. -/
def Leads (P : Language Line) (words words' : Nat → Int32) : Prop :=
  ∃ ls ∈ P, Executes ls words words'

namespace Leads

theorem one (words : Nat → Int32) : Leads 1 words words := ⟨[], rfl, .nil words⟩

theorem line (h : l.Acts words words') : Leads {[l]} words words' :=
  ⟨[l], Set.mem_singleton [l], .cons h (.nil words')⟩

theorem mono (h : Leads P words words') (hle : P ≤ Q) : Leads Q words words' := by
  obtain ⟨ls, hls, hexec⟩ := h
  exact ⟨ls, hle hls, hexec⟩

/-- One language behind another. -/
theorem mul (h : Leads P words words₁) (h' : Leads Q words₁ words') :
    Leads (P * Q) words words' := by
  obtain ⟨ls, hls, hexec⟩ := h
  obtain ⟨ls', hls', hexec'⟩ := h'
  exact ⟨ls ++ ls', Language.append_mem_mul hls hls', hexec.append hexec'⟩

/-- A condition is evaluated ahead of what depends on it. -/
theorem test (c : Expr) (h : Leads P words words') : Leads ({[.perform c]} * P) words words' :=
  (line (.refl _ _)).mul h

/-- A turn ahead of the other turns. -/
theorem kstar_mul (h : Leads P words words₁) (h' : Leads (P∗ * Q) words₁ words') :
    Leads (P∗ * Q) words words' := by
  refine (h.mul h').mono ?_
  rw [← mul_assoc]
  exact mul_le_mul_left mul_kstar_le_kstar Q

end Leads

/-- Runs of `body` are executions of sequences in `F`. -/
def Follows (F : Flow → Language Line) (body : Store → Run (Flow × Store)) : Prop :=
  ∀ st flow st', body st = .done (flow, st') →
    ∃ ls ∈ F flow, Executes ls st.memory.temporaries st'.memory.temporaries

theorem Follows.leads (h : Follows F body) (hrun : body st = .done (flow, st')) :
    Leads (F flow) st.memory.temporaries st'.memory.temporaries :=
  h st flow st' hrun

theorem Follows.once (h : Follows F body) : Follows F (Code.once body) := by
  intro st flow st' hrun
  obtain ⟨⟨flow', inner⟩, hinner, hrun⟩ := Run.bind_eq_done.1 hrun
  cases hrun
  exact h st flow inner hinner

/-- A sequence follows its paths. -/
theorem Follows.andThen (hF : Follows F body) (hG : Follows G rest) :
    Follows (pathsThen F G) fun st => (body st).andThen rest := by
  intro st flow st' hrun
  obtain ⟨⟨flow₁, st₁⟩, hbody, hrun⟩ := Run.bind_eq_done.1 hrun
  have hbody := hF.leads hbody
  cases flow₁ with
  | next => exact (hbody.mul (hG.leads hrun)).mono le_self_add
  | exit | again =>
    cases hrun
    refine hbody.mono ?_
    rw [pathsThen, if_neg (by decide)]
    exact le_add_self

/-- A loop takes turns of one kind, and ends with one of another. -/
theorem leads_of_repeats {turn : Store → Run (Bool × Store)}
    (hturn : ∀ st more st', turn st = .done (more, st') →
      Leads (if more then P else Q) st.memory.temporaries st'.memory.temporaries)
    (h : Run.repeats turn fuel st = .done st') :
    Leads (P∗ * Q) st.memory.temporaries st'.memory.temporaries := by
  induction fuel generalizing st with
  | zero => cases h
  | succ fuel ih =>
    obtain ⟨⟨more, st₁⟩, hfirst, h⟩ := Run.bind_eq_done.1 h
    have hfirst := hturn st more st₁ hfirst
    cases more with
    | true => exact hfirst.kstar_mul (ih h)
    | false =>
      cases h
      have hnone : Leads P∗ st.memory.temporaries st.memory.temporaries :=
        (Leads.one _).mono one_le_kstar
      exact hnone.mul hfirst

/-- A turn of a loop follows the paths of its body. -/
theorem Follows.turn {more : Bool} (h : Follows F body)
    (hturn : Code.turn body st = .done (more, st')) :
    Leads (if more then F .next + F .again else F .exit) st.memory.temporaries
      st'.memory.temporaries := by
  obtain ⟨⟨flow, inner⟩, hbody, hturn⟩ := Run.bind_eq_done.1 hturn
  have hbody := h.leads hbody
  cases hturn
  cases flow with
  | next => exact hbody.mono le_self_add
  | again => exact hbody.mono le_add_self
  | exit => exact hbody

/-- A turn of a counting loop begins with the test, and ends with the update if there is another. -/
theorem Follows.countTurn {header : LoopHeader} {more : Bool} (h : Follows F body)
    (hturn : Code.countTurn inv header body st = .done (more, st')) :
    Leads (if more then {[.perform header.test]} * (F .next + F .again) * {[header.update]}
        else {[.perform header.test]} * (1 + F .exit))
      st.memory.temporaries st'.memory.temporaries := by
  obtain ⟨b, -, hturn⟩ := Run.bind_eq_done.1 hturn
  cases b with
  | false =>
    cases hturn
    exact ((Leads.one _).mono le_self_add).test _
  | true =>
    obtain ⟨⟨more', st₁⟩, hbody, hturn⟩ := Run.bind_eq_done.1 hturn
    have hbody := h.turn hbody
    cases more' with
    | true =>
      obtain ⟨⟨flow, st₂⟩, hupdate, hturn⟩ := Run.bind_eq_done.1 hturn
      cases hturn
      exact (hbody.test _).mul (.line (Line.acts_of_exec hupdate).2)
    | false =>
      cases hturn
      exact (hbody.mono le_add_self).test _

/-- **Runs on integers are executions of paths.** -/
theorem Code.executes_of_exec (c : Code) : Follows c.paths (c.exec inv fuel) := by
  induction c with
  | done =>
    intro st flow st' h
    cases h
    exact Leads.one _
  | line l rest ih =>
    refine Follows.andThen (fun st flow st' h => ?_) ih
    obtain ⟨rfl, hacts⟩ := Line.acts_of_exec h
    rw [Line.path, if_pos rfl]
    exact Leads.line hacts
  | branch c yes rest ihYes ihRest =>
    intro st flow st' h
    obtain ⟨b, -, h⟩ := Run.bind_eq_done.1 h
    refine Leads.test c ?_
    cases b with
    | true => exact ((ihYes.once.andThen ihRest).leads h).mono le_add_self
    | false => exact (ihRest.leads h).mono le_self_add
  | branchElse c yes no rest ihYes ihNo ihRest =>
    intro st flow st' h
    obtain ⟨b, -, h⟩ := Run.bind_eq_done.1 h
    refine Leads.test c ?_
    cases b with
    | true => exact ((ihYes.once.andThen ihRest).leads h).mono le_self_add
    | false => exact ((ihNo.once.andThen ihRest).leads h).mono le_add_self
  | loop body rest ihBody ihRest =>
    intro st flow st' h
    obtain ⟨st₁, hloop, h⟩ := Run.bind_eq_done.1 h
    have hturns := leads_of_repeats (fun _ _ _ => ihBody.turn) hloop
    exact hturns.mul (ihRest.leads h)
  | countLoop header body rest ihBody ihRest =>
    intro st flow st' h
    obtain ⟨⟨flow₁, st₁⟩, hfirst, h⟩ := Run.bind_eq_done.1 h
    obtain ⟨st₂, hloop, h⟩ := Run.bind_eq_done.1 h
    have hfirst := Leads.line (Line.acts_of_exec hfirst).2
    have hturns := leads_of_repeats (fun _ _ _ => ihBody.countTurn) hloop
    have hrest := ihRest.leads h
    have hall := (hfirst.mul hturns).mul hrest
    rwa [← mul_assoc {[header.first]}] at hall

end Runs

/-- Invocations may go one after another. -/
theorem Interleaves.flatten {ended : List (List Line)} (hended : ∀ t ∈ ended, t = [])
    (threads : List (List Line)) : Interleaves (ended ++ threads) threads.flatten := by
  induction threads generalizing ended with
  | nil => exact .done (by simpa using hended)
  | cons t threads ih =>
    induction t with
    | nil =>
      have hmore : ∀ u ∈ ended ++ [[]], u = [] := by simpa [or_imp, forall_and] using hended
      simpa using ih hmore
    | cons l t iht => exact .step iht

namespace Codegen

/-- A dispatch of a program on integers: its invocations go one after another. -/
def Program.run (p : Program) (fuel : Nat) (mem : Memory) : Run Memory :=
  (List.range (p.shader.workgroupSize * p.numWorkgroups)).foldlM (fun mem i => do
    match ← (p.shader.prologue ++ p.shader.body).exec ⟨.ofNat i, .ofNat p.numWorkgroups⟩ fuel
      ⟨[], mem⟩ with
    | (.next, st) => .done st.memory
    | _ => .stuck) mem

/-- **Dispatches on integers are executions of traces.** -/
theorem Program.trace_of_run {p : Program} {fuel : Nat} {mem mem' : Memory}
    (h : p.run fuel mem = .done mem') :
    ∃ ls, p.Trace ls ∧ Executes ls mem.temporaries mem'.temporaries := by
  obtain ⟨threads, hlength, hpaths, hexec⟩ : ∃ threads : List (List Line),
      threads.length = p.shader.workgroupSize * p.numWorkgroups ∧
      (∀ t ∈ threads, t ∈ (p.shader.prologue ++ p.shader.body).paths .next) ∧
      Executes threads.flatten mem.temporaries mem'.temporaries := by
    rw [← length_range (n := p.shader.workgroupSize * p.numWorkgroups)]
    unfold run at h
    generalize List.range (p.shader.workgroupSize * p.numWorkgroups) = ids at h ⊢
    induction ids generalizing mem with
    | nil =>
      cases h
      exact ⟨[], rfl, by simp, .nil _⟩
    | cons i ids ih =>
      rw [foldlM_cons] at h
      obtain ⟨mem₁, hfirst, h⟩ := Run.bind_eq_done.1 h
      obtain ⟨⟨flow, st⟩, hrun, hfirst⟩ := Run.bind_eq_done.1 hfirst
      cases flow <;> cases hfirst
      obtain ⟨t, ht, hexec⟩ := Code.executes_of_exec _ _ _ _ hrun
      obtain ⟨threads, hlength, hpaths, hrest⟩ := ih h
      exact ⟨t :: threads, by simp [hlength], forall_mem_cons.2 ⟨ht, hpaths⟩, hexec.append hrest⟩
  have hturns : Interleaves ([] ++ threads) threads.flatten := .flatten (by simp) threads
  exact ⟨_, ⟨threads, fun _ => hlength, hpaths, hturns⟩, hexec⟩

end Codegen

end WgslKernel
