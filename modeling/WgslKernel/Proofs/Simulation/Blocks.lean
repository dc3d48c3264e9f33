import WgslKernel.Proofs.Simulation.Places

/-!
# Sequences, branches and loops

The names that a block declares are gone behind it, and nothing visible there depended on them.  A
kernel reads the bound of a range-for once and a shader before every turn; the two see the same
number, because no statement of the body changes an integer from outside.
-/

namespace WgslKernel

open List

/-! ## Runs of blocks -/

theorem Code.once_eq (body : Store → Run (Flow × Store)) (st : Store) :
    Code.once body st = body st >>= fun r => .done (r.1, st.leave r.2) := rfl

theorem Code.turn_eq (body : Store → Run (Flow × Store)) (st : Store) :
    Code.turn body st = body st >>= fun r => .done (r.1 != .exit, st.leave r.2) := rfl

theorem Outline.turn_eq (body : Frame → Run (Flow × Frame)) (f : Frame) :
    Outline.turn body f = body f >>= fun r => .done (r.1 != .exit, r.2) := rfl

theorem Outline.countTurn_of_lt {id : StmtId} {n : Int} {body : Frame → Run (Flow × Frame)}
    {i : Nat} {f : Frame} (h : (i : Int) < n) :
    Outline.countTurn id n body (i, f) =
      body (f.set id (.word (Int32.ofInt i))) >>= fun r => .done (r.1 != .exit, (i + 1, r.2)) := by
  rw [countTurn, if_pos h, turn_eq, Run.bind_assoc]
  rfl

theorem Code.countTurn_of_holds {inv : Invocation} {h : LoopHeader}
    {body : Store → Run (Flow × Store)} {st : Store} (htest : h.test.holds inv st = .done true) :
    Code.countTurn inv h body st = body st >>= fun r =>
      if r.1 != .exit then h.update.exec inv (st.leave r.2) >>= fun q => .done (true, q.2)
      else .done (false, st.leave r.2) := by
  rw [countTurn, htest, Run.done_bind, if_pos rfl, turn_eq, Run.bind_assoc]
  rfl

@[simp] theorem Store.leave_self (st : Store) : st.leave st = st := by
  simp [Store.leave]

namespace Codegen

variable {ctx : Context} {values values₁ : Values} {s : Stmt}
  {walked visible visible₁ around around₁ ids ids₁ ids₂ : List StmtId} {iter iter₁ : StmtId → Int32}
  {inv : Invocation} {f : Frame} {store : Store} {a c : Flow × Frame} {b d : Flow × Store}
  {x : StmtId}

/-! ## Agreement on less -/

/-- What is agreed upon inside a block is agreed upon around it. -/
theorem Agrees.narrow {env : StmtId → Option Item} {l : Locals}
    (h : Agrees ctx values₁ visible₁ around₁ iter₁ env l)
    (hvisible : ∀ x ∈ visible, x ∈ visible₁) (haround : ∀ x ∈ around, x ∈ around₁)
    (hiter : ∀ x ∈ around, ctx.module.Plays x .rangeFor → iter₁ x = iter x)
    (hvalues : ∀ x ∈ visible, values.lookup x = values₁.lookup x) :
    Agrees ctx values visible around iter env l where
  consts := h.consts
  entry {x v} hx hv := by
    rw [hvalues x hx] at hv
    exact h.entry (hvisible x hx) hv
  counter {x} hx hplays := by
    rw [← hiter x hx hplays]
    exact h.counter (haround x hx) hplays

/-- Into a block of a statement that does not count. -/
theorem Agrees.enter {env : StmtId → Option Item} {l : Locals}
    (h : Agrees ctx values visible around iter env l) (hx : ¬ ctx.module.Plays x .rangeFor) :
    Agrees ctx values visible (x :: around) iter env l where
  consts := h.consts
  entry := h.entry
  counter {y} hy hplays := by
    rcases mem_cons.1 hy with rfl | hy
    · exact absurd hplays hx
    · exact h.counter hy hplays

namespace Follows

/-- One part after another. -/
theorem trans (h : Follows ctx values₁ visible₁ around ids₁ iter f store a b)
    (h' : Follows ctx values visible₁ around ids₂ iter a.2 b.2 c d)
    (hvisible : ∀ x ∈ visible, x ∈ visible₁) (h₁ : ids₁ ⊆ ids) (h₂ : ids₂ ⊆ ids) :
    Follows ctx values visible around ids iter f store c d where
  flow := h'.flow
  memory := h'.memory
  grows := (h.grows.mono h₁).trans (h'.grows.mono h₂)
  keeps hy hw := h'.keeps (fun hmem => hy (h₂ hmem)) (h.keeps (fun hmem => hy (h₁ hmem)) hw)
  agrees := h'.agrees.narrow hvisible (fun _ hx => hx) (fun _ _ _ => rfl) fun _ _ => rfl
  inLoop := h'.inLoop

/-- The part of a sequence that control was taken from. -/
theorem narrow (h : Follows ctx values₁ visible₁ around ids₁ iter f store a b)
    (hvisible : ∀ x ∈ visible, x ∈ visible₁)
    (hvalues : ∀ x ∈ visible, values.lookup x = values₁.lookup x) (h₁ : ids₁ ⊆ ids) :
    Follows ctx values visible around ids iter f store a b where
  flow := h.flow
  memory := h.memory
  grows := h.grows.mono h₁
  keeps hy hw := h.keeps (fun hmem => hy (h₁ hmem)) hw
  agrees := h.agrees.narrow hvisible (fun _ hx => hx) (fun _ _ _ => rfl) hvalues
  inLoop := h.inLoop

/-- **Sequences.**  The rest of a sequence is compared from where the first part agrees. -/
theorem andThen {x : Run (Flow × Frame)} {y : Run (Flow × Store)}
    {k : Frame → Run (Flow × Frame)} {l : Store → Run (Flow × Store)}
    (h : Simulates (Follows ctx values₁ visible₁ around ids₁ iter f store) x y)
    (hrest : ∀ f' store', f'.memory = store'.memory →
      Agrees ctx values₁ visible₁ around iter f'.env store'.locals →
      Simulates (Follows ctx values visible₁ around ids₂ iter f' store') (k f') (l store'))
    (hvisible : ∀ x ∈ visible, x ∈ visible₁)
    (hvalues : ∀ x ∈ visible, values.lookup x = values₁.lookup x) (h₁ : ids₁ ⊆ ids)
    (h₂ : ids₂ ⊆ ids) :
    Simulates (Follows ctx values visible around ids iter f store) (x.andThen k) (y.andThen l) := by
  refine Simulates.andThen (h.mono fun a b hab => ⟨hab.flow, fun _ => ?_, fun _ => ?_⟩)
  · exact (hrest a.2 b.2 hab.memory hab.agrees).mono fun _ _ hcd => hab.trans hcd hvisible h₁ h₂
  · exact hab.narrow hvisible hvalues h₁

/-- Behind a block, at the table from before it: the names it declared are gone. -/
theorem agrees_leave (h : Follows ctx values₁ visible₁ around₁ ids iter₁ f store a b)
    (htab : Tabled ctx values walked visible around) (hgrid : ctx.gridLoop = none)
    (hvisible : ∀ x ∈ visible, x ∈ visible₁) (haround : ∀ x ∈ around, x ∈ around₁)
    (hiter : ∀ x ∈ around, ctx.module.Plays x .rangeFor → iter₁ x = iter x)
    (hvalues : ∀ x ∈ visible, values.lookup x = values₁.lookup x)
    (hfresh : ∀ x ∈ ids, x ∉ visible) :
    Agrees ctx values visible around iter a.2.env (store.leave b.2).locals := by
  refine (h.agrees.narrow hvisible haround hiter hvalues).congr htab hgrid (fun _ _ => rfl)
    (fun _ _ => rfl) fun n y hy hn => Store.get?_leave h.grows fun z hz hown => ?_
  rw [hn] at hown
  exact hfresh z hz (Option.some.inj hown ▸ hy)

/-- Nothing has happened yet. -/
theorem refl (hag : Agrees ctx values visible around iter f.env store.locals)
    (hmem : f.memory = store.memory) :
    Follows ctx values visible around ids iter f store (.next, f) (.next, store) where
  flow := rfl
  memory := hmem
  grows := .refl
  keeps _ hw := hw
  agrees := hag
  inLoop hne := absurd rfl hne

/-- One more turn of a loop: what happens in its body, and what is left of that behind it. -/
theorem turn {f' g : Frame} {store' : Store}
    (h : Follows ctx values visible around ids iter f store (.next, f') (.next, store'))
    (hg : ∀ {y : StmtId} {w : Int32}, y ∉ ids → f'.env y = some (.word w) →
      g.env y = some (.word w))
    (hturn : Follows ctx values₁ visible₁ around₁ ids₁ iter₁ g store' a b)
    (htab : Tabled ctx values walked visible around) (hgrid : ctx.gridLoop = none)
    (hvisible : ∀ x ∈ visible, x ∈ visible₁) (haround : ∀ x ∈ around, x ∈ around₁)
    (hiter : ∀ x ∈ around, ctx.module.Plays x .rangeFor → iter₁ x = iter x)
    (hvalues : ∀ x ∈ visible, values.lookup x = values₁.lookup x)
    (hfresh : ∀ x ∈ ids₁, x ∉ visible) (h₁ : ids₁ ⊆ ids) :
    Follows ctx values visible around ids iter f store (.next, a.2) (.next, store'.leave b.2) where
  flow := rfl
  memory := hturn.memory
  grows := h.grows.trans (.of_names (Store.names_leave hturn.grows))
  keeps hy hw := hturn.keeps (fun hmem => hy (h₁ hmem)) (hg hy (h.keeps hy hw))
  agrees := hturn.agrees_leave htab hgrid hvisible haround hiter hvalues hfresh
  inLoop hne := absurd rfl hne

/-- Giving another value to the counter of a statement that is not visible. -/
theorem assign {f' : Frame} {store' : Store} {l : Locals}
    (h : Follows ctx values visible around ids iter f store (.next, f') (.next, store'))
    (hx : x ∉ visible) (htab : Tabled ctx values walked visible around)
    (hgrid : ctx.gridLoop = none) (hnames : l.names = store'.locals.names)
    (hl : ∀ n, n ≠ .counter x → l.get? n = store'.locals.get? n) :
    Follows ctx values visible around ids iter f store (.next, f')
      (.next, { store' with locals := l }) where
  flow := rfl
  memory := h.memory
  grows := h.grows.trans (.of_names hnames)
  keeps := h.keeps
  agrees := by
    refine h.agrees.congr htab hgrid (fun _ _ => rfl) (fun _ _ => rfl) fun n y hy hn => hl n ?_
    rintro rfl
    exact hx (Option.some.inj hn ▸ hy)
  inLoop hne := absurd rfl hne

/-- Behind a block that is entered once. -/
theorem once (h : Follows ctx values₁ visible (x :: around) ids₁ iter f store a b)
    (hx : ∀ kind, ctx.module.kind? x = some kind → kind.isLoop = false)
    (htab : Tabled ctx values walked visible around) (hgrid : ctx.gridLoop = none)
    (hvalues : ∀ y ∈ visible, values.lookup y = values₁.lookup y)
    (hfresh : ∀ y ∈ ids₁, y ∉ visible) (h₁ : ids₁ ⊆ ids) :
    Follows ctx values visible around ids iter f store a (b.1, store.leave b.2) where
  flow := h.flow
  memory := h.memory
  grows := .of_names (Store.names_leave h.grows)
  keeps hy hw := h.keeps (fun hmem => hy (h₁ hmem)) hw
  agrees := h.agrees_leave htab hgrid (fun _ hy => hy) (fun _ hy => mem_cons_of_mem _ hy)
    (fun _ _ _ => rfl) hvalues hfresh
  inLoop hne := by
    obtain ⟨y, hy, kind, hkind, hloop⟩ := h.inLoop hne
    rcases mem_cons.1 hy with rfl | hy
    · rw [hx kind hkind] at hloop
      cases hloop
    · exact ⟨y, hy, kind, hkind, hloop⟩

/-- Past a statement that has no entry, to the table after its blocks. -/
theorem pass (h : Follows ctx values visible around ids iter f store a b)
    (hx : values.lookup x = none)
    (hvalues : ∀ y ∈ x :: visible, values₁.lookup y = values.lookup y) :
    Follows ctx values₁ (x :: visible) around ids iter f store a b where
  flow := h.flow
  memory := h.memory
  grows := h.grows
  keeps := h.keeps
  agrees := (h.agrees.pass hx).narrow (fun _ hy => hy) (fun _ hy => hy) (fun _ _ _ => rfl) hvalues
  inLoop := h.inLoop

end Follows

/-! ## Conditions and bounds -/

theorem differ_zero (bits : UInt32) :
    Binary32.differ bits 0 = decide (Binary32.magnitude bits ≠ 0) := by
  have hnan : Binary32.isNaN bits = true → Binary32.magnitude bits ≠ 0 := by
    intro h hzero
    simp [Binary32.isNaN, Binary32.exponentField, hzero] at h
  have hne : Binary32.magnitude bits ≠ 0 → bits ≠ 0 := by
    rintro h rfl
    exact h rfl
  have hzero : Binary32.isNaN 0 = false ∧ Binary32.magnitude 0 = 0 := by decide
  rw [Bool.eq_iff_iff, Binary32.differ, hzero.1, hzero.2]
  simp only [Bool.or_false, Bool.or_eq_true, Bool.and_eq_true, bne_iff_ne, ne_eq, bne_self_eq_false,
    decide_eq_true_eq]
  tauto

/-- The condition of a branch holds when the operand is not zero. -/
theorem Standing.branchCondition (h : Standing ctx values s walked visible around)
    (hag : Agrees ctx values visible around iter f.env store.locals) {cond : StmtId}
    {b₁ b₂ : BlockId} {e : Expr} (hkind : s.kind = .branch cond b₁ b₂)
    (he : Codegen.branchCondition ctx values s.id cond = .ok e) (inv : Invocation) :
    ∃ item p, f.item cond = .done item ∧ item.isNonzero = .done p ∧
      e.holds inv store = .done p := by
  obtain ⟨v, hv, he⟩ := bind_eq_ok.1 he
  cases he
  have hint := h.integral
  rw [hkind] at hint
  rcases h.number hag (by simp [hkind, Kind.operands]) (scalar_eq_ok.1 hv).1 hint with
    ⟨w, henv, htype, hreads⟩ | ⟨bits, henv, htype, hreads⟩
  · refine ⟨.word w, decide (w ≠ 0), by simp [Frame.item, henv], rfl, ?_⟩
    have heval : (Expr.binary .ne v.expr (.zero v.type.prim)).eval inv store =
        .done (.truth (decide (w ≠ 0))) := by
      rw [htype]
      exact eval_onInts (hreads.eval inv) eval_int_zero
    rw [Expr.holds, heval]
    rfl
  · refine ⟨.float bits, decide (Binary32.magnitude bits ≠ 0), by simp [Frame.item, henv], rfl, ?_⟩
    have hzero : (Expr.zero .f32).eval inv store = .done (.float 0) := by
      simp [Expr.zero, Expr.eval, Literal.eval]
      decide
    have heval : (Expr.binary .ne v.expr (.zero v.type.prim)).eval inv store =
        .done (.truth (Binary32.differ bits 0)) := by
      rw [htype]
      exact eval_binary (hreads.eval inv) hzero rfl
    rw [Expr.holds, heval, differ_zero]
    rfl

/-- Integers are known by their words. -/
theorem env_of_word {w : Int32} (h : f.word x = .done w) : f.env x = some (.word w) := by
  unfold Frame.word Frame.item at h
  cases henv : f.env x with
  | none => simp [henv, Run.ofOption] at h
  | some item => cases item <;> simp_all [Item.asWord]

/-- The bound of a serial loop is the same number whenever it is read. -/
theorem Standing.loopBound (h : Standing ctx values s walked visible around)
    (hag : Agrees ctx values visible around iter f.env store.locals) {bound : RangeBound}
    {serial : Bool} {body : BlockId} {e : Expr} (hkind : s.kind = .rangeFor bound serial body)
    (he : Codegen.loopBound ctx values s.id bound = .ok e) (inv : Invocation) :
    ∃ n : Int32, bound.count f = .done n.toInt ∧ ∀ (f' : Frame) (store' : Store),
      Agrees ctx values visible around iter f'.env store'.locals →
      (∀ {y : StmtId} {w : Int32}, y ∈ walked → f.env y = some (.word w) →
        f'.env y = some (.word w)) →
      e.eval inv store' = .done (.int n) := by
  have hint := h.integral
  rw [hkind] at hint
  rcases loopBound_eq_ok he with ⟨g, n, rfl, hn, rfl⟩ | ⟨x, v, rfl, hvalue, htype, rfl⟩
  · obtain ⟨hcount, hlt⟩ := fieldElements_eq_ok hn
    refine ⟨Int32.ofInt n, ?_, fun _ _ _ _ => eval_index hlt⟩
    rw [RangeBound.count, hcount, toInt_ofInt (Int.natCast_nonneg n) (by exact_mod_cast hlt)]
    rfl
  · have hx : x ∈ s.kind.operands := by simp [hkind, Kind.operands]
    obtain ⟨n, hn, -⟩ := h.word_of_type hag hx hvalue hint htype
    refine ⟨n, by rw [RangeBound.count, hn]; rfl, fun f' store' hag' hkeeps => ?_⟩
    obtain ⟨n', hn', hreads⟩ := h.word_of_type hag' hx hvalue hint htype
    have hsame : f'.env x = f.env x := by
      rcases value_eq_ok.1 hvalue with hlookup | ⟨-, c, hc, -⟩
      · -- A statement walked before the loop.
        have henv := env_of_word hn
        rw [henv, hkeeps (h.table.keys hlookup) henv]
      · rw [hag.consts hc, hag'.consts hc]
    have heq : n' = n := by
      have henv := env_of_word hn'
      rw [hsame, env_of_word hn] at henv
      cases henv
      rfl
    rw [← heq]
    exact hreads.eval inv

/-! ## Loops -/

/-- Into the body of a range-for, in turn `i`. -/
theorem Agrees.count {env : StmtId → Option Item} {l : Locals} {i : Int32}
    (h : Agrees ctx values visible around iter env l)
    (htab : Tabled ctx values walked visible around) (hx : x ∉ walked)
    (hplays : ctx.module.Plays x .rangeFor)
    (hget : l.get? (.counter x) = some ⟨.counter x, true, .int i⟩) :
    Agrees ctx values (x :: visible) (x :: around) (Function.update iter x i)
      (fun y => if y = x then some (.word i) else env y) l where
  consts {y c} hc := by
    have hne : y ≠ x := by
      rintro rfl
      obtain ⟨bound, serial, body, hkind⟩ := hplays.rangeFor
      rw [hc] at hkind
      cases hkind
    rw [if_neg hne, h.consts hc]
  entry {y v} hy hv := by
    have hne : y ≠ x := by
      rintro rfl
      rw [htab.lookup_none hx] at hv
      cases hv
    rw [if_neg hne]
    exact h.entry (mem_of_ne_of_mem hne hy) hv
  counter {y} hy hplays' := by
    by_cases heq : y = x
    · subst heq
      simpa using hget
    · have hmem := mem_of_ne_of_mem heq hy
      simpa [heq] using h.counter hmem hplays'

/-- A range-for before each turn: agreement around the loop, and a counter up to the bound. -/
structure Counting (ctx : Context) (values : Values) (visible around ids : List StmtId)
    (iter : StmtId → Int32) (f : Frame) (store : Store) (x : StmtId) (n : Int32)
    (p : Nat × Frame) (store' : Store) : Prop where
  follows : Follows ctx values visible around ids iter f store (.next, p.2) (.next, store')
  counter : store'.locals.get? (.counter x) =
    some ⟨.counter x, true, .int (Int32.ofInt p.1)⟩
  bounded : (p.1 : Int) ≤ max n.toInt 0

/-- The counter does not wrap on its way to the bound. -/
theorem counter_lt {n : Int32} {i : Nat} (h : (i : Int) ≤ max n.toInt 0) :
    Int32.ofInt i < n ↔ (i : Int) < n.toInt := by
  have hle := n.toInt_le
  have hmax : Int32.maxValue.toInt = 2 ^ 31 - 1 := by decide
  have hi : (Int32.ofInt i).toInt = i :=
    toInt_ofInt (Int.natCast_nonneg i) (by unfold indexLimit; omega)
  rw [Int32.lt_iff_toInt_lt, hi]

/-- The test of a loop counts its turns. -/
theorem Counting.test {n : Int32} {p : Nat × Frame} {store' : Store} {stop : Expr}
    (h : Counting ctx values visible around ids iter f store x n p store')
    (hstop : stop.eval inv store' = .done (.int n)) :
    (serialLoop x stop).test.holds inv store' = .done (decide ((p.1 : Int) < n.toInt)) := by
  have hcounter : (Expr.ident (.counter x)).eval inv store' = .done (.int (Int32.ofInt p.1)) :=
    (Reads.counter h.counter).eval inv
  rw [LoopHeader.test, Expr.holds, serialLoop, eval_onInts hcounter hstop]
  simp only [Operator.onInts, Run.done_bind, counter_lt h.bounded]

/-- The update of a loop moves its counter and nothing else. -/
theorem update_exec (stop : Expr) (inv : Invocation) {store' : Store} {i : Nat}
    (hget : store'.locals.get? (.counter x) = some ⟨.counter x, true, .int (Int32.ofInt i)⟩) :
    ∃ l, (serialLoop x stop).update.exec inv store' = .done (.next, { store' with locals := l }) ∧
      Locals.names l = store'.locals.names ∧
      l.get? (.counter x) = some ⟨.counter x, true, .int (Int32.ofInt (i + 1 : Nat))⟩ ∧
      ∀ n, n ≠ .counter x → l.get? n = store'.locals.get? n := by
  have hcounter : (Expr.ident (.counter x)).eval inv store' = .done (.int (Int32.ofInt i)) :=
    (Reads.counter hget).eval inv
  have hsum : Int32.ofInt i + 1 = Int32.ofInt (i + 1 : Nat) := by
    rw [Int.natCast_add, Int32.ofInt_add]
    rfl
  obtain ⟨l, hassign, hnames, hget', hrest⟩ :=
    Locals.assign_of_get? (d := .int (Int32.ofInt i + 1)) hget rfl rfl
  refine ⟨l, ?_, hnames, by rw [hget', hsum], hrest⟩
  simp [LoopHeader.update, serialLoop, Line.exec, eval_onInts hcounter eval_int_one,
    Operator.onInts, Store.put, hassign]

section Loops

variable {body : Frame → Run (Flow × Frame)} {body' : Store → Run (Flow × Store)}
  (htab : Tabled ctx values walked visible around) (hgrid : ctx.gridLoop = none)
  (hag : Agrees ctx values visible around iter f.env store.locals) (hmem : f.memory = store.memory)

include htab hgrid hag hmem

/-- **Loops without a counter.**  The invariant is agreement on what is visible around the loop. -/
theorem simulates_repeats (fuel : Nat) (hx : ¬ ctx.module.Plays x .rangeFor)
    (hbody : ∀ f' store', f'.memory = store'.memory →
      Agrees ctx values visible (x :: around) iter f'.env store'.locals →
      Simulates (Follows ctx values₁ visible (x :: around) ids iter f' store') (body f')
        (body' store'))
    (hvalues : ∀ y ∈ visible, values.lookup y = values₁.lookup y)
    (hfresh : ∀ y ∈ ids, y ∉ visible) :
    Simulates (fun f' store' =>
      Follows ctx values visible around ids iter f store (.next, f') (.next, store'))
      (Run.repeats (Outline.turn body) fuel f) (Run.repeats (Code.turn body') fuel store) := by
  refine Simulates.repeats (R := fun f' store' =>
    Follows ctx values visible around ids iter f store (.next, f') (.next, store'))
    (fun f' store' h => ?_) fuel (.refl hag hmem)
  rw [Outline.turn_eq, Code.turn_eq]
  refine (hbody f' store' h.memory (h.agrees.enter hx)).bind fun a b hab => ?_
  have hnext := h.turn (fun _ hw => hw) hab htab hgrid (fun _ hy => hy)
    (fun _ hy => mem_cons_of_mem _ hy) (fun _ _ _ => rfl) hvalues hfresh (fun _ hy => hy)
  refine ⟨by rw [hab.flow], ?_⟩
  split
  · exact hnext
  · exact hnext

/-- **Range-fors.**  One turn keeps the invariant, and the two loops end together. -/
theorem simulates_count (fuel : Nat) {n : Int32} {stop : Expr} (hx : x ∉ walked)
    (hplays : ctx.module.Plays x .rangeFor) (hids : x ∉ ids₁) (hsub : x :: ids₁ ⊆ ids)
    (hstop : ∀ (f' : Frame) (store' : Store),
      Agrees ctx values visible around iter f'.env store'.locals →
      (∀ {y : StmtId} {w : Int32}, y ∉ ids → f.env y = some (.word w) →
        f'.env y = some (.word w)) → stop.eval inv store' = .done (.int n))
    (hbody : ∀ i f' store', f'.memory = store'.memory →
      Agrees ctx values (x :: visible) (x :: around) (Function.update iter x i) f'.env
        store'.locals →
      Simulates (Follows ctx values₁ (x :: visible) (x :: around) ids₁ (Function.update iter x i)
        f' store') (body f') (body' store'))
    (hvalues : ∀ y ∈ visible, values.lookup y = values₁.lookup y)
    (hfresh : ∀ y ∈ ids, y ∉ visible) :
    Simulates (fun p store' =>
      Follows ctx values visible around ids iter f store (.next, p.2) (.next, store'))
      (Run.repeats (Outline.countTurn x n.toInt body) fuel (0, f))
      (Run.repeats (Code.countTurn inv (serialLoop x stop) body') fuel
        (store.declare (.counter x) true (.int 0))) := by
  have hxvis : x ∉ visible := fun hmem => hx (htab.walked_of_visible hmem)
  have hids₁ : ids₁ ⊆ ids := fun y hy => hsub (mem_cons_of_mem _ hy)
  have hother : ∀ y ∈ ids₁, (Ident.counter x).owner? ≠ some y := fun y hy hown =>
    hids (Option.some.inj hown ▸ hy)
  -- The counters of the loops around are those of other statements.
  have hiter : ∀ i, ∀ y ∈ around, ctx.module.Plays y .rangeFor →
      Function.update iter x i y = iter y := by
    intro i y hy hplays'
    have hne : y ≠ x := fun heq => hxvis (heq ▸ htab.loops hy hplays' (by simp [hgrid]))
    exact Function.update_of_ne hne _ _
  refine Simulates.repeats (R := Counting ctx values visible around ids iter f store x n)
    (fun p store' h => ?_) fuel ?_
  · obtain ⟨i, f'⟩ := p
    have htest := h.test (hstop f' store' h.follows.agrees h.follows.keeps)
    by_cases hlt : (i : Int) < n.toInt
    · rw [Outline.countTurn_of_lt hlt, Code.countTurn_of_holds (by rw [htest, decide_eq_true hlt])]
      have hag' := h.follows.agrees.count htab hx hplays h.counter
      refine (hbody _ (f'.set x (.word (Int32.ofInt i))) store' h.follows.memory hag').bind
        fun a b hab => ?_
      have hset : ∀ {y : StmtId} {w : Int32}, y ∉ ids → f'.env y = some (.word w) →
          (f'.set x (.word (Int32.ofInt i))).env y = some (.word w) := by
        intro y w hy hw
        have hne : y ≠ x := fun heq => hy (heq ▸ hsub mem_cons_self)
        rw [Frame.set_env_of_ne hne, hw]
      have hturn := h.follows.turn hset hab htab hgrid (fun _ hy => mem_cons_of_mem _ hy)
        (fun _ hy => mem_cons_of_mem _ hy) (hiter _) hvalues
        (fun y hy => hfresh y (hids₁ hy)) hids₁
      rw [← hab.flow]
      by_cases hexit : a.1 = .exit
      · simp only [hexit, bne_self_eq_false, Bool.false_eq_true, if_false]
        exact ⟨rfl, hturn⟩
      · have hmore : (a.1 != .exit) = true := by simpa using hexit
        have hget : (store'.leave b.2).locals.get? (.counter x) =
            some ⟨.counter x, true, .int (Int32.ofInt i)⟩ := by
          rw [Store.get?_leave hab.grows hother, (hab.agrees.counter mem_cons_self hplays).2,
            Function.update_self]
        obtain ⟨l, hupdate, hnames, hnew, hold⟩ := update_exec stop inv hget
        rw [hmore, if_pos rfl, hupdate]
        refine ⟨rfl, ?_⟩
        rw [if_pos rfl]
        exact ⟨hturn.assign hxvis htab hgrid hnames hold, hnew, by dsimp only; omega⟩
    · rw [Outline.countTurn, if_neg hlt, Code.countTurn, htest, decide_eq_false hlt]
      exact ⟨rfl, h.follows⟩
  · refine ⟨⟨rfl, hmem, .declare (hsub mem_cons_self) rfl, fun _ hw => hw, ?_,
      fun hne => absurd rfl hne⟩, Locals.get?_cons_self ⟨.counter x, true, .int 0⟩ _,
      by dsimp only; omega⟩
    refine hag.congr htab hgrid (fun _ _ => rfl) (fun _ _ => rfl) fun m y hy hm => ?_
    refine Locals.get?_cons_of_ne ?_
    rintro rfl
    exact hxvis (Option.some.inj hm ▸ hy)

end Loops

end Codegen

end WgslKernel
