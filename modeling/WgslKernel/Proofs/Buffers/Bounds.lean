import WgslKernel.Proofs.Access.Legality
import WgslKernel.Proofs.Blame.Kernels
import WgslKernel.Proofs.Buffers.Accesses

/-!
# Accesses within blocks

A block is declared with a fixed number of words, and a shader touches it at constant indices below
that number (`Session.generate_inBounds`).  `Origin` lists the reasons for an access.  The other way
round, what lies inside its block is never refused for lying outside.
-/

namespace WgslKernel

open List

/-- The number of words that a buffer is declared with, if it is fixed. -/
def Declaration.length? : Declaration → Option Nat
  | buffer _ length _ => length
  | handle _ => none

/-- The words that a shader touches. -/
def Shader.accesses (s : Shader) : List (Resource × Expr) := s.prologue.accesses ++ s.body.accesses

/-- Index `k` is within each declaration of `r` in the shader, and there is one. -/
def Shader.InBounds (s : Shader) (r : Resource) (k : Nat) : Prop :=
  (∃ g ∈ s.globals, g.binding.resource = r) ∧
    ∀ g ∈ s.globals, g.binding.resource = r → ∃ n, g.declaration.length? = some n ∧ k < n

/-- A temporary or an argument that lies inside its block. -/
def Kind.InsideBlock (config : Config) (signature : Signature) : Kind → Prop
  | temporary _ offset => offset + 4 ≤ config.globalTmpsBytes
  | argLoad _ arg => (arg + 1) * 4 ≤ signature.argBytes
  | _ => False

/-- A configuration that was read has the seed inside the temporaries. -/
theorem Config.seed_of_parse {text : String} {config : Config}
    (h : Config.parse text = .ok config) :
    config.randSeedOffset % 4 = 0 ∧ config.randSeedOffset + 4 ≤ config.globalTmpsBytes := by
  obtain ⟨r, -, h⟩ := bind_eq_ok.1 h
  obtain ⟨⟨⟩, hcheck, h⟩ := bind_eq_ok.1 h
  cases h
  unfold Config.check at hcheck
  split at hcheck
  · cases hcheck
  · split at hcheck
    · cases hcheck
    · split at hcheck
      · cases hcheck
      · split at hcheck
        · cases hcheck
        · split at hcheck
          · cases hcheck
          · omega

namespace Codegen

variable {ctx : Context} {o : Offload} {d : Draft} {bindings : BindingMap} {s t : Stmt} {st : State}
  {r : Resource} {i : Expr} {k : Nat}

/-! ## Sizes of blocks -/

/-- The number of words of a block. -/
def Context.blockWords (ctx : Context) (r : Resource) : Nat :=
  match r.kind with
  | .args => Config.ceilDiv ctx.signature.argBytes 4
  | .rets => Config.ceilDiv ctx.signature.retBytes 4
  | _ => ctx.config.globalTmpsWords

/-- A block is declared with its number of words. -/
theorem Declares.length {decl : Declaration} (h : Declares ctx r decl) (hr : r.isBlock = true) :
    decl.length? = some (ctx.blockWords r) := by
  cases h with
  | globalTmps | globalTmpsAtomic | args | rets => rfl
  | root | rootAtomic | texture | storageTexture | sampler => cases hr

/-- A word inside of the bytes is inside of the words. -/
theorem lt_ceilDiv {bytes : Nat} (h : (k + 1) * 4 ≤ bytes) : k < Config.ceilDiv bytes 4 := by
  unfold Config.ceilDiv
  split <;> omega

/-- **What a statement touches lies in the block.** -/
theorem Addressed.lt (h : Addressed ctx s r k) : k < ctx.blockWords r := by
  cases h with
  | temporary hr _ _ hin =>
    have hlt : k < ctx.config.globalTmpsWords := by
      unfold Config.globalTmpsWords
      omega
    rcases hr with rfl | rfl <;> exact hlt
  | arg _ hin => exact lt_ceilDiv hin
  | ret _ hk hin => exact lt_ceilDiv (Nat.le_trans (Nat.mul_le_mul_right 4 hk) hin)

theorem Addressed.gridLoop {grid : Option StmtId}
    (h : Addressed { ctx with gridLoop := grid } s r k) : Addressed ctx s r k := by
  cases h with
  | temporary hr htarget hkind hin => exact .temporary hr htarget hkind hin
  | arg hkind hin => exact .arg hkind hin
  | ret hkind hk hin => exact .ret hkind hk hin

/-! ## Offloads -/

/-- Why the shader of an offload touches word `k` of a block. -/
inductive Origin (ctx : Context) (o : Offload) : Resource → Nat → Prop where
  | stmt {s : Stmt} {r : Resource} {k : Nat} (hnested : ctx.module.NestedIn o.stmts s.id)
    (hs : ctx.module.stmts[s.id]? = some s) (haddressed : Addressed ctx s r k) : Origin ctx o r k
  /-- The bound of the parallel loop is loaded from a temporary. -/
  | bound {root load ptr : StmtId} {serial : Bool} {body : BlockId} {k : Nat}
    (hroot : o.stmts = [root])
    (hkind : ctx.module.kind? root = some (.rangeFor (.value load) serial body))
    (hload : ctx.module.kind? load = some (.temporaryLoad ptr))
    (hptr : ctx.module.kind? ptr = some (.temporary .i32 (4 * k)))
    (hin : 4 * k + 4 ≤ ctx.config.globalTmpsBytes) : Origin ctx o .globalTmps k
  | seed {k : Nat} (hk : 4 * k = ctx.config.randSeedOffset)
    (hin : 4 * k + 4 ≤ ctx.config.globalTmpsBytes) : Origin ctx o .globalTmps k

/-- What an origin gives is in bounds. -/
theorem Origin.lt (h : Origin ctx o r k) : k < ctx.blockWords r := by
  cases h with
  | stmt _ _ haddressed => exact haddressed.lt
  | bound _ _ _ _ hin | seed _ hin =>
    have hlt : k < ctx.config.globalTmpsWords := by
      unfold Config.globalTmpsWords
      omega
    exact hlt

/-- The end of a parallel loop is a number, or the word of the temporary that it is loaded from. -/
theorem GridBounds.accesses {root : StmtId} {bound : RangeBound} {serial : Bool} {body : BlockId}
    {b : GridBound} (h : GridBounds ctx root bound b) (hroot : o.stmts = [root])
    (hkind : ctx.module.kind? root = some (.rangeFor bound serial body))
    (ha : (r, i) ∈ b.stop.accesses) :
    (∃ u ∈ b.uses, u.resource = r) ∧ ∃ k : Nat, i = .lit (.abstract k) ∧ Origin ctx o r k := by
  cases h with
  | field | const => cases ha
  | @loaded _ _ _ word hload hptr hword =>
    simp only [Expr.accesses_word, Expr.accesses, mem_singleton] at ha
    cases ha
    obtain ⟨rfl, hin⟩ := temporaryWord_eq_ok hword
    exact ⟨⟨_, mem_cons_self, rfl⟩, word, rfl, .bound hroot hkind hload hptr hin⟩

theorem gridPrologue_accesses (config : Config) (stop : Expr) :
    (Code.ofLines (gridPrologue config stop)).accesses = stop.accesses := by
  simp [gridPrologue, Code.ofLines, Code.accesses, Line.accesses]

/-- Seeding touches one word, that of the seed. -/
theorem seedLines_accesses : (Code.ofLines (seedLines ctx)).accesses =
    [(.globalTmps, .lit (.abstract ctx.config.randSeedWord))] := by
  have hid : (randId ctx.stage).accesses = [] := by
    cases ctx.stage <;> simp [randId, Expr.input]
  simp [seedLines, Code.ofLines, Code.accesses, Line.accesses, hid]

/-- What a draft touches of a block has an origin, and the block is among what was collected. -/
theorem draft_accesses (hinv : ctx.module.Inv) (ho : o ∈ ctx.module.groups)
    (hstage : ctx.stage = o.kind.stage) (hgrid : ctx.gridLoop = none)
    (hseed : ctx.config.randSeedOffset % 4 = 0 ∧
      ctx.config.randSeedOffset + 4 ≤ ctx.config.globalTmpsBytes)
    (h : draft ctx { bindings } o = .ok d) (hr : r.isBlock = true)
    (ha : (r, i) ∈ (assemble ctx o.kind d).shader.accesses) :
    r ∈ d.state.resources ∧ ∃ k : Nat, i = .lit (.abstract k) ∧ Origin ctx o r k := by
  obtain ⟨grid, roots, inner, around, start, code, hd⟩ := drafted_of_draft hinv ho hstage hgrid h
  have hcode (ha : (r, i) ∈ code.accesses) :
      r ∈ d.state.resources ∧ ∃ k : Nat, i = .lit (.abstract k) ∧ Origin ctx o r k := by
    have hstart : start.values.Entries (Slotted { ctx with gridLoop := grid }) := by
      rw [hd.values]
      exact entries_nil
    obtain ⟨hhas, k, hk, s, hs, haddressed⟩ := hd.walks.touched (fun s hs => hs)
      (fun s hs => hd.placed.found_of_mem hs) hstart hr ha
    refine ⟨hhas, k, hk, .stmt ?_ (hd.placed.found_of_mem hs) haddressed.gridLoop⟩
    refine hinv.nestedIn_of_mem_outlineOf ho ?_
    rw [hd.stmts]
    exact mem_append_right _ hs
  have hseeding
      (ha : (r, i) ∈ (Code.ofLines (if d.state.random then seedLines ctx else [])).accesses) :
      r ∈ d.state.resources ∧ ∃ k : Nat, i = .lit (.abstract k) ∧ Origin ctx o r k := by
    split at ha
    · rename_i hrandom
      rw [seedLines_accesses, mem_singleton] at ha
      cases ha
      have hword : 4 * ctx.config.randSeedWord = ctx.config.randSeedOffset := by
        unfold Config.randSeedWord
        omega
      exact ⟨(hd.sound_end.seeded hrandom).1, _, rfl, .seed hword (by omega)⟩
    · cases ha
  simp only [Shader.accesses, assemble, ofLines_append, Code.accesses_append, mem_append] at ha
  cases hd.frame with
  | bare hprologue hbody =>
    rw [hprologue, hbody] at ha
    rcases ha with (ha | ha) | ha
    · cases ha
    · exact hseeding ha
    · exact hcode ha
  | @grid root stop _ hprologue hbody =>
    obtain ⟨hkind, hstmts⟩ := (hd.isGrid root).1 rfl
    obtain ⟨bound, serial, body, b, hroot, hbound, rfl, huses⟩ :=
      draft_stop hkind hstmts h hprologue
    have hheader : gridLoop.accesses = [] := rfl
    rw [hprologue, hbody, gridPrologue_accesses] at ha
    simp only [Code.accesses, hheader, nil_append, append_nil] at ha
    rcases ha with (ha | ha) | ha
    · obtain ⟨⟨u, hu, rfl⟩, hk⟩ := hbound.accesses hstmts hroot ha
      exact ⟨huses u hu, hk⟩
    · exact hseeding ha
    · exact hcode ha

/-- **Blocks are touched within their bounds.** -/
theorem inBounds_of_draft (hinv : ctx.module.Inv) (ho : o ∈ ctx.module.groups)
    (hstage : ctx.stage = o.kind.stage) (hgrid : ctx.gridLoop = none)
    (hseed : ctx.config.randSeedOffset % 4 = 0 ∧
      ctx.config.randSeedOffset + 4 ≤ ctx.config.globalTmpsBytes)
    (h : draft ctx { bindings } o = .ok d) (hr : r.isBlock = true)
    (ha : (r, i) ∈ (assemble ctx o.kind d).shader.accesses) :
    ∃ k : Nat, i = .lit (.abstract k) ∧ Origin ctx o r k ∧
      (assemble ctx o.kind d).shader.InBounds r k := by
  obtain ⟨hmem, k, hk, horigin⟩ := draft_accesses hinv ho hstage hgrid hseed h hr ha
  refine ⟨k, hk, horigin, mem_map.1 hmem, fun g hg hgr => ?_⟩
  have hdeclares := draft_declares (fun hserial => Module.exists_root_of_mem_groups ho hserial) h
    (by simp [State.Declares]) g hg
  rw [hgr] at hdeclares
  exact ⟨_, hdeclares.length hr, horigin.lt⟩

/-- **Where a statement is reached, it touches blocks at its own words.** -/
theorem Reached.addressed {m : Module} {signature : Signature} {config : Config}
    {previous : Option Task} {l : Lowering} {grid : Option StmtId} (hinv : m.Inv)
    (ho : o ∈ m.groups) (h : Reached m o signature config previous st t)
    (hleaf : t.kind.childBlocks = [])
    (hl : lower { contextOf m o signature config previous with gridLoop := grid } st.values t =
      .ok l)
    (hr : r.isBlock = true) (ha : (r, i) ∈ l.code.accesses) :
    ∃ k : Nat, i = .lit (.abstract k) ∧
      Addressed (contextOf m o signature config previous) t r k := by
  obtain ⟨bindings, ctx', st₀, p, -, hstarts, hreaches⟩ := h
  obtain ⟨around, hplaced⟩ := hstarts.placed hinv ho
  have hctx := hstarts.context_eq
  have hslotted : st.values.Entries (Slotted ctx') := by
    refine hreaches.entries (yields_slotted fun s hs => ?_) ?_
    · rw [hctx]
      exact hplaced.found_of_mem hs
    · rw [hstarts.values_eq]
      exact entries_nil
  rw [hctx] at hslotted
  obtain ⟨k, hk, haddressed⟩ := (lowers_of_lower hleaf hl).addressed hslotted ha hr
  exact ⟨k, hk, haddressed.gridLoop⟩

/-! ## What is refused for lying outside -/

theorem checkPrim_ne_undeclared {id x : StmtId} {ty : Prim} {cause : Shortfall} :
    checkPrim id ty ≠ .error (.error (.undeclaredResource x cause)) := by
  unfold checkPrim
  split <;> exact nofun

/-- A temporary is refused if it ends outside. -/
theorem temporaryWord_undeclared {config : Config} {id x : StmtId} {offset : Nat}
    {cause : Shortfall}
    (h : temporaryWord config id offset = .error (.error (.undeclaredResource x cause))) :
    x = id ∧ config.globalTmpsBytes < offset + 4 := by
  unfold temporaryWord at h
  split at h
  · cases h
  · split at h
    · cases h
      exact ⟨rfl, ‹_›⟩
    · cases h

/-- A statement inside its block is not what fails for want of a resource. -/
theorem FailsAt.not_insideBlock {x : StmtId} {cause : Shortfall}
    (h : FailsAt ctx st t (.error (.undeclaredResource x cause))) :
    ¬ t.kind.InsideBlock ctx.config ctx.signature := by
  intro hinside
  cases h with
  | uses _ _ he => cases he
  | member h =>
    obtain ⟨_, _, he⟩ := addMember_eq_error h
    cases he
  | branch hkind | count hkind =>
    rw [hkind] at hinside
    exact hinside
  | lower h =>
    cases hkind : t.kind with
    | temporary ty offset =>
      simp only [Codegen.lower, hkind] at h
      rw [hkind] at hinside
      rcases bind_eq_error.1 h with h | ⟨⟨⟩, -, h⟩
      · exact checkPrim_ne_undeclared h
      rcases bind_eq_error.1 h with h | ⟨word, -, h⟩
      · exact Nat.not_lt.2 hinside (temporaryWord_undeclared h).2
      · cases h
    | argLoad ty arg =>
      simp only [Codegen.lower, hkind] at h
      rw [hkind] at hinside
      rcases bind_eq_error.1 h with h | ⟨⟨⟩, -, h⟩
      · exact checkPrim_ne_undeclared h
      rw [if_neg (Nat.not_lt.2 hinside)] at h
      rcases bind_eq_error.1 h with h | ⟨type, -, h⟩
      · unfold shaderType at h
        split at h <;> cases h
      · cases h
    | _ =>
      rw [hkind] at hinside
      exact hinside

/-- The bound of a parallel loop fails for want of a resource at a temporary outside its block. -/
theorem gridBound_undeclared {root x : StmtId} {bound : RangeBound} {cause : Shortfall}
    (h : gridBound ctx root bound = .error (.error (.undeclaredResource x cause))) :
    ∃ offset, ctx.module.kind? x = some (.temporary .i32 offset) ∧
      ctx.config.globalTmpsBytes < offset + 4 := by
  cases boundFails_of_gridBound h with
  | outside hptr hout => exact ⟨_, hptr, hout⟩

end Codegen

namespace Module

open Codegen

variable {m : Module} {o : Offload} {signature : Signature} {config : Config} {t : Stmt}

/-- **What lies inside its block is not refused for lying outside.** -/
theorem Inv.not_undeclared (hinv : m.Inv) (ho : o ∈ m.groups) (ht : m.stmts[t.id]? = some t)
    (hinside : t.kind.InsideBlock config signature) (previous : Option Task) (cause : Shortfall) :
    generate m o signature config previous ≠
      .error (.error (.undeclaredResource t.id cause)) := by
  intro h
  obtain ⟨bindings, hdraft⟩ := draft_of_generate_eq_error h
  cases draftFails_of_draft hinv ho rfl hdraft with
  | walk hstarts hwalk =>
    obtain ⟨st', u, hreach, hfails⟩ := failsAt_of_walk hwalk
    obtain ⟨around, hplaced⟩ := hstarts.placed hinv ho
    have hu : m.stmts[u.id]? = some u := hplaced.found_of_mem hreach.mem
    rw [hstarts.context_eq] at hfails
    obtain ⟨hid, -⟩ := hfails.grounds_error
    obtain rfl : t = u := by
      have hid : t.id = u.id := hid
      rw [hid, hu] at ht
      exact (Option.some.inj ht).symm
    exact hfails.not_insideBlock hinside
  | bound _ _ _ hbound =>
    obtain ⟨offset, hkind, hout⟩ := gridBound_undeclared hbound
    have hkind : m.kind? t.id = some (.temporary .i32 offset) := hkind
    rw [kind?, ht, Option.map_some, Option.some.injEq] at hkind
    rw [hkind] at hinside
    exact Nat.not_lt.2 hinside hout
  | slots _ _ _ _ _ _ he => cases he
  | workgroups h =>
    obtain ⟨_, he⟩ := fault_of_workgroups h
    cases he
  | position _ _ _ hmember =>
    obtain ⟨_, _, he⟩ := addMember_eq_error hmember
    cases he

theorem Inv.compile_not_undeclared (hinv : m.Inv) (ht : m.stmts[t.id]? = some t)
    (hinside : t.kind.InsideBlock config signature) (cause : Shortfall) :
    compile m signature config ≠ .error (.error (.undeclaredResource t.id cause)) := by
  intro h
  rcases compile_eq_error h with h | ⟨-, o, ho, previous, -, h⟩
  · obtain ⟨before, o, after, i, x, -, -, -, he⟩ := hinv.partition_eq_error.1 h
    cases he
  · exact hinv.not_undeclared ho ht hinside previous cause h

end Module

namespace Session

open Codegen

variable {actions : List Action} {s : Session} {m : Module} {text : String} {config : Config}

/-- **Constant indices are in bounds.**  In a generated shader the temporaries, plain and atomic,
the arguments and the return values are touched at constant indices that are smaller than the
declared length of the buffer, each for a known reason; that of a statement are its own, a fourth of
the byte offset if it works on a temporary.  A temporary or an argument inside its block is never
refused for lying outside. -/
theorem generate_inBounds (hrun : Session.run {} actions = .ok s)
    (hfinish : s.builder.finish = .ok m) (hconfig : Config.parse text = .ok config) :
    (∀ o ∈ m.groups, ∀ signature previous task,
      generate m o signature config previous = .ok task →
      (∃ p, program m o signature config previous = .ok p ∧ task = p.task o.kind signature ∧
        ∀ r i, r.isBlock = true → (r, i) ∈ p.shader.accesses →
          ∃ k : Nat, i = .lit (.abstract k) ∧ p.shader.InBounds r k ∧
            Origin (contextOf m o signature config previous) o r k) ∧
      ∀ st t grid l r i, Reached m o signature config previous st t → t.kind.childBlocks = [] →
        lower { contextOf m o signature config previous with gridLoop := grid } st.values t =
          .ok l →
        r.isBlock = true → (r, i) ∈ l.code.accesses →
          ∃ k : Nat, i = .lit (.abstract k) ∧
            Addressed (contextOf m o signature config previous) t r k) ∧
    ∀ (t : Stmt) signature, m.stmts[t.id]? = some t → t.kind.InsideBlock config signature →
      ∀ cause, compile m signature config ≠ .error (.error (.undeclaredResource t.id cause)) ∧
        ∀ o ∈ m.groups, ∀ previous, generate m o signature config previous ≠
          .error (.error (.undeclaredResource t.id cause)) := by
  obtain ⟨hinv, -⟩ := inv_of_finish hrun hfinish
  refine ⟨fun o ho signature previous task h => ⟨?_, ?_⟩, fun t signature ht hinside cause =>
    ⟨hinv.compile_not_undeclared ht hinside cause, fun o ho previous =>
      hinv.not_undeclared ho ht hinside previous cause⟩⟩
  · obtain ⟨p, hp, h⟩ := bind_eq_ok.1 h
    cases h
    obtain ⟨bindings, d, hd, rfl⟩ := program_eq_ok hp
    refine ⟨_, hp, rfl, fun r i hr ha => ?_⟩
    have hinv' : (contextOf m o signature config previous).module.Inv := hinv
    obtain ⟨k, hk, horigin, hbounds⟩ :=
      inBounds_of_draft hinv' ho rfl rfl (Config.seed_of_parse hconfig) hd hr ha
    exact ⟨k, hk, hbounds, horigin⟩
  · intro st t grid l r i hreached hleaf hl hr ha
    exact hreached.addressed hinv ho hleaf hl hr ha

/-- A kernel that touches the last word of the temporaries in every way there is. -/
def lastWord : List Action :=
  [.create (.temporary .i32 65532), .create (.argLoad .i32 1), .create (.temporaryStore 0 1),
    .create (.atomic .add 0 1), .create (.temporaryLoad 0), .create (.ret [4]),
    .create (.rangeFor (.value 4) false), .openGuard .rangeFor 6, .create (.rand .i32),
    .create (.temporary .i32 65528), .create (.temporaryStore 8 7), .closeGuard 0]

/-- Both shaders touch the last word. -/
theorem generate_inBounds_lastWord : ∃ s m first second,
    Session.run {} lastWord = .ok s ∧ s.builder.finish = .ok m ∧ Config.parse "" = .ok {} ∧
      m.groups = [⟨.serial, [0, 1, 2, 3, 4, 5]⟩, ⟨.rangeFor, [6]⟩] ∧
      program m ⟨.serial, [0, 1, 2, 3, 4, 5]⟩ ⟨8, 4⟩ {} none = .ok first ∧
      first.shader.accesses = [(.args, .lit (.abstract 1)), (.globalTmps, .lit (.abstract 16383)),
        (.globalTmpsAtomic, .lit (.abstract 16383)), (.globalTmps, .lit (.abstract 16383)),
        (.rets, .lit (.abstract 0))] ∧
      (first.shader.InBounds .args 1 ∧ first.shader.InBounds .globalTmps 16383 ∧
        first.shader.InBounds .globalTmpsAtomic 16383 ∧ first.shader.InBounds .rets 0) ∧
      program m ⟨.rangeFor, [6]⟩ ⟨8, 4⟩ {} none = .ok second ∧
      second.shader.accesses = [(.globalTmps, .lit (.abstract 16383)),
        (.globalTmps, .lit (.abstract 1024)), (.globalTmps, .lit (.abstract 16382))] ∧
      (second.shader.InBounds .globalTmps 16383 ∧ second.shader.InBounds .globalTmps 1024 ∧
        second.shader.InBounds .globalTmps 16382) ∧
      ∀ cause, compile m ⟨8, 4⟩ {} ≠ .error (.error (.undeclaredResource 0 cause)) ∧
        compile m ⟨8, 4⟩ {} ≠ .error (.error (.undeclaredResource 1 cause)) := by
  have hkernel : ∃ s m first second, Session.run {} lastWord = .ok s ∧
      s.builder.finish = .ok m ∧ Config.parse "" = .ok {} ∧
      m.groups = [⟨.serial, [0, 1, 2, 3, 4, 5]⟩, ⟨.rangeFor, [6]⟩] ∧
      program m ⟨.serial, [0, 1, 2, 3, 4, 5]⟩ ⟨8, 4⟩ {} none = .ok first ∧
      first.shader.accesses = [(.args, .lit (.abstract 1)), (.globalTmps, .lit (.abstract 16383)),
        (.globalTmpsAtomic, .lit (.abstract 16383)), (.globalTmps, .lit (.abstract 16383)),
        (.rets, .lit (.abstract 0))] ∧
      program m ⟨.rangeFor, [6]⟩ ⟨8, 4⟩ {} none = .ok second ∧
      second.shader.accesses = [(.globalTmps, .lit (.abstract 16383)),
        (.globalTmps, .lit (.abstract 1024)), (.globalTmps, .lit (.abstract 16382))] ∧
      m.stmts[0]? = some ⟨0, rootBlock, .temporary .i32 65532⟩ ∧
      m.stmts[1]? = some ⟨1, rootBlock, .argLoad .i32 1⟩ :=
    ⟨_, _, _, _, rfl, rfl, rfl, rfl, rfl, rfl, rfl, rfl, rfl, rfl⟩
  obtain ⟨s, m, first, second, hrun, hfinish, hconfig, hgroups, hfirst, haccesses₁, hsecond,
    haccesses₂, htemporary, harg⟩ := hkernel
  obtain ⟨hall, hinside⟩ := generate_inBounds hrun hfinish hconfig
  have hbounds {o : Offload} (ho : o ∈ m.groups) {p : Program}
      (hp : program m o ⟨8, 4⟩ {} none = .ok p) {r : Resource} {k : Nat} (hr : r.isBlock = true)
      (ha : (r, .lit (.abstract k)) ∈ p.shader.accesses) : p.shader.InBounds r k := by
    obtain ⟨⟨p', hp', -, hin⟩, -⟩ :=
      hall o ho ⟨8, 4⟩ none (p.task o.kind ⟨8, 4⟩) (bind_eq_ok.2 ⟨p, hp, rfl⟩)
    cases hp.symm.trans hp'
    obtain ⟨k', hk, hlt, -⟩ := hin r _ hr ha
    simp only [Expr.lit.injEq, Literal.abstract.injEq, Nat.cast_inj] at hk
    exact hk ▸ hlt
  refine ⟨s, m, first, second, hrun, hfinish, hconfig, hgroups, hfirst, haccesses₁, ?_, hsecond,
    haccesses₂, ?_, fun cause => ⟨?_, ?_⟩⟩
  · refine ⟨hbounds (by simp [hgroups]) hfirst rfl ?_, hbounds (by simp [hgroups]) hfirst rfl ?_,
      hbounds (by simp [hgroups]) hfirst rfl ?_, hbounds (by simp [hgroups]) hfirst rfl ?_⟩
    all_goals simp [haccesses₁]
  · refine ⟨hbounds (by simp [hgroups]) hsecond rfl ?_, hbounds (by simp [hgroups]) hsecond rfl ?_,
      hbounds (by simp [hgroups]) hsecond rfl ?_⟩
    all_goals simp [haccesses₂]
  · exact (hinside ⟨0, rootBlock, .temporary .i32 65532⟩ ⟨8, 4⟩ htemporary (Nat.le_refl 65536)
      cause).1
  · exact (hinside ⟨1, rootBlock, .argLoad .i32 1⟩ ⟨8, 4⟩ harg (Nat.le_refl 8) cause).1

end Session

end WgslKernel
