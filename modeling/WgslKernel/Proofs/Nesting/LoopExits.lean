import WgslKernel.Proofs.Codegen.Operands
import WgslKernel.Proofs.Nesting.Rows

/-!
# Loop exits

A `break` or a `continue` refers to the innermost loop of the text, which need not be that of the
innermost loop-like statement: a graphics stage has no loop in its shader, a float atomic needs one,
and the parallel loop has a head of its own.  `Marked` is code together with the statements it stems
from, and the loops around a row are those of the statements around its statement.
-/

namespace WgslKernel

open List

open Codegen

/-! ## Code and the statements it stems from -/

/-- Code along with the statements it stems from.  A statement without blocks stands for all its
code, a graphics stage for its body. -/
inductive Marked where
  | done
  | leaf (s : Stmt) (code : Code) (rest : Marked)
  | branch (s : Stmt) (cond : Expr) (yes rest : Marked)
  | branchElse (s : Stmt) (cond : Expr) (yes no rest : Marked)
  | loop (s : Stmt) (body rest : Marked)
  | countLoop (s : Stmt) (header : LoopHeader) (body rest : Marked)
  | stage (s : Stmt) (body rest : Marked)

namespace Marked

/-- The code without the statements. -/
def code : Marked → Code
  | done => .done
  | leaf _ c rest => c ++ rest.code
  | branch _ cond yes rest => .branch cond yes.code rest.code
  | branchElse _ cond yes no rest => .branchElse cond yes.code no.code rest.code
  | loop _ body rest => .loop body.code rest.code
  | countLoop _ header body rest => .countLoop header body.code rest.code
  | stage _ body rest => body.code ++ rest.code

/-- The statements without the code. -/
def outline : Marked → Outline
  | done => .nil
  | leaf s _ rest => .cons s .nil .nil rest.outline
  | branch s _ yes rest => .cons s yes.outline .nil rest.outline
  | branchElse s _ yes no rest => .cons s yes.outline no.outline rest.outline
  | loop s body rest => .cons s body.outline .nil rest.outline
  | countLoop s _ body rest => .cons s body.outline .nil rest.outline
  | stage s body rest => .cons s body.outline .nil rest.outline

/-- The text as rows. -/
def rows (depth : Nat) : Marked → List Row
  | done => []
  | leaf s c rest => c.rows s.id depth ++ rest.rows depth
  | branch s c yes rest =>
    Row.block depth s.id s!"if ({c.text}) \x7b" (yes.rows (depth + 1)) (rest.rows depth)
  | branchElse s c yes no rest =>
    ⟨depth, s!"if ({c.text}) \x7b", s.id⟩ :: (yes.rows (depth + 1) ++
      Row.block depth s.id "\x7d else \x7b" (no.rows (depth + 1)) (rest.rows depth))
  | loop s body rest =>
    Row.block depth s.id "loop \x7b" (body.rows (depth + 1)) (rest.rows depth)
  | countLoop s h body rest =>
    Row.block depth s.id (h.text ++ " \x7b") (body.rows (depth + 1)) (rest.rows depth)
  | stage _ body rest => body.rows depth ++ rest.rows depth

/-- Statements stand for what offload `o` makes of them. -/
def Sound (o : Offload) : Marked → Prop
  | done => True
  | leaf s c rest =>
    s.kind.childBlocks = [] ∧ (∃ ctx values l, lower ctx values s = .ok l ∧ l.code = c) ∧
      rest.Sound o
  | branch s _ yes rest => (∃ cond b₁ b₂, s.kind = .branch cond b₁ b₂) ∧ yes.Sound o ∧ rest.Sound o
  | branchElse s _ yes no rest =>
    (∃ cond b₁ b₂, s.kind = .branch cond b₁ b₂) ∧ yes.Sound o ∧ no.Sound o ∧ rest.Sound o
  | loop s body rest => (∃ b, s.kind = .whileTrue b) ∧ body.Sound o ∧ rest.Sound o
  | countLoop s header body rest =>
    o.inductionVariable? s = some header.counter ∧ body.Sound o ∧ rest.Sound o
  | stage s body rest =>
    ((∃ b, s.kind = .vertexFor b) ∨ ∃ b, s.kind = .fragmentFor b) ∧ body.Sound o ∧ rest.Sound o

variable {marked : Marked} {depth : Nat}

/-- Marked code ends what it begins. -/
theorem balanced_rows (marked : Marked) (depth : Nat) : Row.Balanced (marked.rows depth) := by
  induction marked generalizing depth with
  | done => exact fun _ => rfl
  | leaf s c rest ih => exact c.balanced_rows.append (ih depth)
  | stage s body rest ihBody ihRest => exact (ihBody depth).append (ihRest depth)
  | branch s c yes rest ihYes ihRest =>
    exact fun _ => Row.foldl_block (Row.pass_header (Row.isHeader_if c) _ _) (ihYes _) (ihRest _)
  | branchElse s c yes no rest ihYes ihNo ihRest =>
    intro around
    rw [rows, foldl_cons, foldl_append, Row.pass_header (Row.isHeader_if c), ihYes]
    exact Row.foldl_block (Row.pass_else _ _) (ihNo _) (ihRest _)
  | loop s body rest ihBody ihRest =>
    exact fun _ => Row.foldl_block (Row.pass_header Row.isHeader_loop _ _) (ihBody _) (ihRest _)
  | countLoop s h body rest ihBody ihRest =>
    exact fun _ =>
      Row.foldl_block (Row.pass_header (Row.isHeader_count h) _ _) (ihBody _) (ihRest _)

/-- Rows make up the text. -/
theorem join_rows (marked : Marked) (depth : Nat) :
    String.join ((marked.rows depth).map Row.text) = marked.code.text depth := by
  induction marked generalizing depth with
  | done => rfl
  | leaf s c rest ih =>
    rw [rows, map_append, String.join_append, c.join_rows, ih, code, Code.text_append]
  | _ =>
    simp_all [rows, code, Code.text, Code.text_append, Row.block, Row.text, String.append_assoc]

end Marked

/-! ## Loops of the text and of the module -/

/-- Statements that run what they own again and again, in the shader too. -/
def Kind.repeats : Kind → Bool
  | whileTrue _ | rangeFor .. => true
  | _ => false

theorem Kind.isLoop_of_repeats (kind : Kind) (h : kind.repeats = true) : kind.isLoop = true := by
  unfold repeats at h
  split at h
  · rfl
  · rfl
  · cases h

/-- The line that leaves an iteration of a loop. -/
def Kind.exit? : Kind → Option Line
  | exitLoop => some .exitLoop
  | nextIteration => some .nextIteration
  | _ => none

/-- The row is the head of the loop that stands for a statement. -/
structure Row.HeadOf (r : Row) (o : Offload) (t : Stmt) : Prop where
  origin : r.origin = t.id
  content : (∃ body, t.kind = .whileTrue body) ∧ r.content = "loop \x7b" ∨
    ∃ header : LoopHeader, o.inductionVariable? t = some header.counter ∧
      r.content = header.text ++ " \x7b"

/-- The loops among the rows around a row are those of the statements around a statement. -/
def Tracks (m : Module) (o : Offload) (rows : List Row) (around : List StmtId) : Prop :=
  List.Forall₂ (fun r i => ∃ t, t.id = i ∧ m.stmts[t.id]? = some t ∧ r.HeadOf o t)
    (rows.filter Row.isLoop) (around.filter fun i => (m.kind? i).any Kind.repeats)

section

variable {m : Module} {o : Offload} {rows : List Row} {around : List StmtId} {r : Row} {s : Stmt}

theorem Tracks.nil : Tracks m o [] [] := List.Forall₂.nil

theorem Tracks.row (h : Tracks m o rows around) (hr : r.isLoop = false) :
    Tracks m o (r :: rows) around := by
  simpa [Tracks, hr] using h

theorem Tracks.stmt (h : Tracks m o rows around) (hs : m.stmts[s.id]? = some s)
    (hkind : s.kind.repeats = false) : Tracks m o rows (s.id :: around) := by
  simpa [Tracks, Module.kind?, hs, hkind] using h

theorem Tracks.loop (h : Tracks m o rows around) (hr : r.isLoop = true)
    (hs : m.stmts[s.id]? = some s) (hkind : s.kind.repeats = true) (hhead : r.HeadOf o s) :
    Tracks m o (r :: rows) (s.id :: around) := by
  have hkind : ((m.kind? s.id).any Kind.repeats) = true := by simp [Module.kind?, hs, hkind]
  simpa [Tracks, hr, hkind] using ⟨⟨s, rfl, hs, hhead⟩, h⟩

end

namespace Marked

variable {m : Module} {rows outer : List Row} {walked visible around : List StmtId} {r : Row}
  {s t : Stmt} {line : Line} {o : Offload}

theorem repeats_of_inductionVariable {n : Ident} (h : o.inductionVariable? s = some n) :
    s.kind.repeats = true ∧ s.kind.exit? = none := by
  unfold Offload.inductionVariable? at h
  split at h
  · rename_i hkind
    rw [hkind]
    exact ⟨rfl, rfl⟩
  · cases h

/-- An exit is lowered to one line. -/
theorem code_of_exit {ctx : Context} {values : Values} {l : Lowering}
    (h : lower ctx values s = .ok l) (hexit : s.kind.exit? = some line) :
    l.code = .line line .done := by
  unfold Kind.exit? at hexit
  split at hexit
  all_goals
    rename_i hkind
    cases hexit
  all_goals
    rw [lower, hkind] at h
    cases h
    rfl

theorem ne_of_exit (hs : m.stmts[s.id]? = some s) (hkind : s.kind.exit? = none)
    (ht : m.stmts[t.id]? = some t) (hexit : t.kind.exit? = some line) : t.id ≠ s.id := by
  intro hid
  rw [hid, hs] at ht
  cases ht
  rw [hkind] at hexit
  cases hexit

/-- **The loops around a row are those around its statement**, if the statement leaves one. -/
theorem tracks_of_nested {marked : Marked} {depth : Nat} (hsound : marked.Sound o)
    (hplaced : marked.outline.Placed m walked visible around) (h : Tracks m o rows around)
    (ht : m.stmts[t.id]? = some t) (hexit : t.kind.exit? = some line)
    (hr : (outer, r) ∈ Row.nested rows (marked.rows depth)) (horigin : r.origin = t.id) :
    r.content = line.text ∧ Tracks m o outer (m.enclosing t.block) := by
  induction marked generalizing depth rows walked visible around with
  | done => cases hr
  | leaf s c rest ih =>
    obtain ⟨hleaf, ⟨ctx, values, l, hl, rfl⟩, hrest⟩ := hsound
    obtain _ | ⟨found, -, -, inside, -, -, hplaced⟩ := hplaced
    rw [Marked.rows, Row.nested_append, l.code.balanced_rows, mem_append] at hr
    rcases hr with hr | hr
    · have hid := Code.origin_of_mem_rows (Row.mem_of_nested hr)
      rw [horigin] at hid
      rw [hid, found] at ht
      cases ht
      rw [code_of_exit hl hexit] at hr
      cases mem_singleton.1 hr
      exact ⟨rfl, inside ▸ h⟩
    · exact ih hrest hplaced h hr
  | stage s body rest ihBody ihRest =>
    obtain ⟨hkind, hbody, hrest⟩ := hsound
    obtain _ | ⟨found, -, -, inside, hplacedBody, -, hplacedRest⟩ := hplaced
    rw [Marked.rows, Row.nested_append, body.balanced_rows, mem_append] at hr
    rcases hr with hr | hr
    · refine ihBody hbody hplacedBody (h.stmt found ?_) hr
      rcases hkind with ⟨b, hkind⟩ | ⟨b, hkind⟩ <;> rw [hkind] <;> rfl
    · exact ihRest hrest hplacedRest h hr
  | branch s c yes rest ihYes ihRest =>
    obtain ⟨⟨cond, b₁, b₂, hkind⟩, hyes, hrest⟩ := hsound
    obtain _ | ⟨found, -, -, -, hplacedYes, -, hplacedRest⟩ := hplaced
    have hinner := h.stmt found (by rw [hkind]; rfl)
    rcases Row.mem_nested_block (Row.pass_header (Row.isHeader_if c) _ _) (yes.balanced_rows _) hr
      (horigin ▸ ne_of_exit found (by rw [hkind]; rfl) ht hexit) with hr | hr
    · exact ihYes hyes hplacedYes (hinner.row (Row.isLoop_if c _ _)) hr
    · exact ihRest hrest hplacedRest h hr
  | branchElse s c yes no rest ihYes ihNo ihRest =>
    obtain ⟨⟨cond, b₁, b₂, hkind⟩, hyes, hno, hrest⟩ := hsound
    obtain _ | ⟨found, -, -, -, hplacedYes, hplacedNo, hplacedRest⟩ := hplaced
    have hinner := h.stmt found (by rw [hkind]; rfl)
    have hne : r.origin ≠ s.id := horigin ▸ ne_of_exit found (by rw [hkind]; rfl) ht hexit
    rw [Marked.rows, Row.nested, Row.pass_header (Row.isHeader_if c), Row.nested_append,
      yes.balanced_rows, mem_cons, mem_append] at hr
    rcases hr with hr | hr | hr
    · cases hr
      exact absurd rfl hne
    · exact ihYes hyes hplacedYes (hinner.row (Row.isLoop_if c _ _)) hr
    · rcases Row.mem_nested_block (Row.pass_else _ _) (no.balanced_rows _) hr hne with hr | hr
      · exact ihNo hno hplacedNo (hinner.row (Row.isLoop_else _ _)) hr
      · exact ihRest hrest hplacedRest h hr
  | loop s body rest ihBody ihRest =>
    obtain ⟨⟨b, hkind⟩, hbody, hrest⟩ := hsound
    obtain _ | ⟨found, -, -, -, hplacedBody, -, hplacedRest⟩ := hplaced
    have hloop := h.loop (Row.isLoop_loop depth s.id) found (by rw [hkind]; rfl)
      ⟨rfl, .inl ⟨⟨b, hkind⟩, rfl⟩⟩
    rcases Row.mem_nested_block (Row.pass_header Row.isHeader_loop _ _) (body.balanced_rows _) hr
      (horigin ▸ ne_of_exit found (by rw [hkind]; rfl) ht hexit) with hr | hr
    · exact ihBody hbody hplacedBody hloop hr
    · exact ihRest hrest hplacedRest h hr
  | countLoop s header body rest ihBody ihRest =>
    obtain ⟨hvariable, hbody, hrest⟩ := hsound
    obtain ⟨hrepeats, hnone⟩ := repeats_of_inductionVariable hvariable
    obtain _ | ⟨found, -, -, -, hplacedBody, -, hplacedRest⟩ := hplaced
    have hloop := h.loop (Row.isLoop_count header depth s.id) found hrepeats
      ⟨rfl, .inr ⟨header, hvariable, rfl⟩⟩
    rcases Row.mem_nested_block (Row.pass_header (Row.isHeader_count header) _ _)
      (body.balanced_rows _) hr (horigin ▸ ne_of_exit found hnone ht hexit) with hr | hr
    · exact ihBody hbody hplacedBody hloop hr
    · exact ihRest hrest hplacedRest h hr

/-- A statement that leaves a loop has a row. -/
theorem exists_row {marked : Marked} (depth : Nat) (hsound : marked.Sound o)
    (ht : t ∈ marked.outline.stmts) (hexit : t.kind.exit? = some line) :
    ∃ r ∈ marked.rows depth, r.origin = t.id := by
  induction marked generalizing depth with
  | done => cases ht
  | leaf s c rest ih =>
    obtain ⟨-, ⟨ctx, values, l, hl, rfl⟩, hrest⟩ := hsound
    rcases mem_cons.1 ht with rfl | ht
    · rw [Marked.rows, code_of_exit hl hexit]
      exact ⟨_, mem_cons_self, rfl⟩
    · obtain ⟨r, hr, horigin⟩ := ih depth hrest ht
      exact ⟨r, mem_append_right _ hr, horigin⟩
  | branch s _ inner rest ihInner ihRest | loop s inner rest ihInner ihRest
  | countLoop s _ inner rest ihInner ihRest =>
    have hinner := ihInner (depth + 1) hsound.2.1
    have hrest := ihRest depth hsound.2.2
    simp only [outline, Outline.stmts, Marked.rows, Row.block, mem_cons, mem_append,
      not_mem_nil] at ht ⊢
    grind
  | branchElse s _ yes no rest ihYes ihNo ihRest =>
    have hyes := ihYes (depth + 1) hsound.2.1
    have hno := ihNo (depth + 1) hsound.2.2.1
    have hrest := ihRest depth hsound.2.2.2
    simp only [outline, Outline.stmts, Marked.rows, Row.block, mem_cons, mem_append] at ht ⊢
    grind
  | stage s body rest ihBody ihRest =>
    have hbody := ihBody depth hsound.2.1
    have hrest := ihRest depth hsound.2.2
    have hkind : s.kind.exit? = none := by
      rcases hsound.1 with ⟨b, hkind⟩ | ⟨b, hkind⟩ <;> rw [hkind] <;> rfl
    simp only [outline, Outline.stmts, Marked.rows, mem_cons, mem_append, not_mem_nil] at ht ⊢
    grind

end Marked

namespace Codegen

variable {ctx : Context} {st st' : State} {outline : Outline} {code : Code} {o : Offload}

/-- **The code of a walk stems from the statements walked.** -/
theorem Walks.marked (h : Walks ctx st outline st' code) (howned : outline.Owned)
    (hcounter : ∀ s ∈ outline.stmts, ∀ bound serial b, s.kind = .rangeFor bound serial b →
      o.inductionVariable? s = some (.counter s.id)) :
    ∃ marked : Marked, marked.outline = outline ∧ marked.code = code ∧ marked.Sound o := by
  induction h with
  | nil => exact ⟨.done, rfl, rfl, trivial⟩
  | @branch _ _ _ _ s _ second _ _ _ _ c _ _ _ hkind _ _ _ _ ihFirst ihSecond ihRest =>
    obtain ⟨-, -, hfirst, hsecond, hrest⟩ := howned
    obtain ⟨-, hcFirst, hcSecond, hcRest⟩ := Outline.forall_stmts_cons.1 hcounter
    obtain ⟨yes, rfl, rfl, hyes⟩ := ihFirst hfirst hcFirst
    obtain ⟨tail, rfl, rfl, htail⟩ := ihRest hrest hcRest
    cases second with
    | nil => exact ⟨.branch s c yes tail, rfl, rfl, ⟨_, _, _, hkind⟩, hyes, htail⟩
    | cons =>
      obtain ⟨no, heq, rfl, hno⟩ := ihSecond hsecond hcSecond
      exact ⟨.branchElse s c yes no tail, by rw [Marked.outline, heq], rfl, ⟨_, _, _, hkind⟩, hyes,
        hno, htail⟩
  | @loop _ _ _ s _ _ _ _ _ _ hkind _ _ ihFirst ihRest =>
    obtain ⟨-, hnil, hfirst, -, hrest⟩ := howned
    obtain ⟨-, hcFirst, -, hcRest⟩ := Outline.forall_stmts_cons.1 hcounter
    obtain ⟨body, rfl, rfl, hbody⟩ := ihFirst hfirst hcFirst
    obtain ⟨tail, rfl, rfl, htail⟩ := ihRest hrest hcRest
    rw [hnil (by rw [hkind]; exact Nat.le_refl 1)]
    exact ⟨.loop s body tail, rfl, rfl, ⟨_, hkind⟩, hbody, htail⟩
  | @count _ _ _ s _ _ _ _ _ _ stop _ _ hkind _ _ _ ihFirst ihRest =>
    obtain ⟨-, hnil, hfirst, -, hrest⟩ := howned
    obtain ⟨hself, hcFirst, -, hcRest⟩ := Outline.forall_stmts_cons.1 hcounter
    obtain ⟨body, rfl, rfl, hbody⟩ := ihFirst hfirst hcFirst
    obtain ⟨tail, rfl, rfl, htail⟩ := ihRest hrest hcRest
    rw [hnil (by rw [hkind]; exact Nat.le_refl 1)]
    exact ⟨.countLoop s (serialLoop s.id stop) body tail, rfl, rfl, hself _ _ _ hkind, hbody, htail⟩
  | @leaf _ _ _ s _ _ _ l _ hkind hlower _ _ ihRest =>
    obtain ⟨hfirst, hsecond, -, -, hrest⟩ := howned
    obtain ⟨-, -, -, hcRest⟩ := Outline.forall_stmts_cons.1 hcounter
    obtain ⟨tail, rfl, rfl, htail⟩ := ihRest hrest hcRest
    rw [hfirst (by rw [hkind]; rfl), hsecond (by rw [hkind]; exact Nat.zero_le 1)]
    exact ⟨.leaf s l.code tail, rfl, rfl, hkind, ⟨_, _, l, hlower, rfl⟩, htail⟩

/-- **The code of a draft stems from the statements of its offload.** -/
theorem draft_marked {d : Draft} {bindings : BindingMap} (hinv : ctx.module.Inv)
    (ho : o ∈ ctx.module.groups) (h : draft ctx { bindings } o = .ok d) :
    ∃ marked : Marked, marked.outline = ctx.module.outlineOf ctx.module.outline o.stmts ∧
      marked.code = d.body ∧ marked.Sound o := by
  have hcounter {s : Stmt} (hs : o.kind = .rangeFor → o.stmts ≠ [s.id]) (bound : RangeBound)
      (serial : Bool) (b : BlockId) (hkind : s.kind = .rangeFor bound serial b) :
      o.inductionVariable? s = some (.counter s.id) := by
    rw [Offload.inductionVariable?, hkind]
    exact congrArg some (if_neg fun h => hs h.1 h.2)
  by_cases hserial : o.kind = .serial
  · obtain ⟨st', code, hwalks, rfl⟩ := draft_serial hserial h
    exact hwalks.marked (Module.owned_outlineOf (Module.owned_outline _) _)
      fun s _ => hcounter fun hrange => by simp [hserial] at hrange
  obtain ⟨s, hs, hstmts, hroot, hstandalone⟩ := standalone_eq hinv ho hserial
  have hbody {b : BlockId} (hb : s.kind.childBlocks = [b]) :
      ctx.module.outlineOf ctx.module.outline o.stmts = .cons s (ctx.module.outline b) .nil .nil ∧
        ∀ t ∈ (ctx.module.outline b).stmts, o.kind = .rangeFor → o.stmts ≠ [t.id] := by
    refine ⟨by rw [hstmts, Module.outlineOf_standalone hs hb], ?_⟩
    rintro t ht - heq
    rw [hstmts, List.cons.injEq] at heq
    exact (placed_standalone hinv ho hs hstmts hroot hb).2 (heq.1 ▸ mem_map_of_mem ht)
  by_cases hrange : o.kind = .rangeFor
  · obtain ⟨s', bound, serial, body, b, st₀, n, st', code, hs', hkind, -, -, -, hwalks, rfl⟩ :=
      draft_rangeFor hrange hstmts h
    cases hs.symm.trans hs'
    obtain ⟨houtline, hother⟩ := hbody (b := body) (by rw [hkind]; rfl)
    obtain ⟨inner, hinner, rfl, hsound⟩ := hwalks.marked (Module.owned_outline _ _)
      fun t ht => hcounter (hother t ht)
    refine ⟨.countLoop s gridLoop inner .done, ?_, rfl, ?_, hsound, trivial⟩
    · rw [houtline, Marked.outline, hinner]
      rfl
    · simp [Offload.inductionVariable?, hkind, hrange, hstmts, gridLoop]
  · have hstage : (∃ b, s.kind = .vertexFor b) ∨ ∃ b, s.kind = .fragmentFor b := by
      unfold OffloadKind.standalone? at hstandalone
      split at hstandalone
      · exact absurd (Option.some.inj hstandalone).symm hrange
      · exact .inl ⟨_, ‹_›⟩
      · exact .inr ⟨_, ‹_›⟩
      · cases hstandalone
    obtain ⟨s', body, outputs, st', code, hs', hb, -, -, hwalks, rfl⟩ :=
      draft_graphics (by cases hk : o.kind <;> simp_all) hstmts h
    cases hs.symm.trans hs'
    obtain ⟨houtline, hother⟩ := hbody hb
    obtain ⟨inner, hinner, rfl, hsound⟩ := hwalks.marked (Module.owned_outline _ _)
      fun t ht => hcounter (hother t ht)
    refine ⟨.stage s inner .done, ?_, Code.append_done _, hstage, hsound, trivial⟩
    rw [houtline, Marked.outline, hinner]
    rfl

end Codegen

/-! ## Exits -/

/-- The innermost loop-like statement around a block. -/
def Module.innermostLoop? (m : Module) (b : BlockId) : Option StmtId :=
  (m.enclosing b).find? fun i => (m.kind? i).any Kind.isLoop

section

variable {m : Module} {o : Offload} {b : BlockId} {kind : Kind} {around : List Row} {loop : StmtId}

theorem Module.innermostLoop_of_loopAround (h : m.loopAround b = some kind) :
    ∃ loop, m.innermostLoop? b = some loop ∧ m.kind? loop = some kind := by
  rw [Module.loopAround, List.find?_filterMap, Option.bind_eq_some_iff] at h
  exact h

/-- What the builder admits of loops around a statement. -/
theorem Module.Admits.loops (h : m.Admits b kind) :
    (kind = .exitLoop → ∃ loop body, m.innermostLoop? b = some loop ∧
      m.kind? loop = some (.whileTrue body)) ∧
    (kind = .nextIteration → ∃ loop kind', m.innermostLoop? b = some loop ∧
      m.kind? loop = some kind' ∧ ((∃ body, kind' = .whileTrue body) ∨
        ∃ bound serial body, kind' = .rangeFor bound serial body)) ∧
    ∀ loop, kind = .loopIndex loop → loop ∈ m.enclosing b ∧
      ∃ bound serial body, m.kind? loop = some (.rangeFor bound serial body) := by
  refine ⟨?_, ?_, ?_⟩
  · rintro rfl
    obtain ⟨body, h⟩ := h
    obtain ⟨loop, hloop, hkind⟩ := innermostLoop_of_loopAround h
    exact ⟨loop, body, hloop, hkind⟩
  · rintro rfl
    rcases h with ⟨body, h⟩ | ⟨bound, serial, body, h⟩
    · obtain ⟨loop, hloop, hkind⟩ := innermostLoop_of_loopAround h
      exact ⟨loop, _, hloop, hkind, .inl ⟨_, rfl⟩⟩
    · obtain ⟨loop, hloop, hkind⟩ := innermostLoop_of_loopAround h
      exact ⟨loop, _, hloop, hkind, .inr ⟨_, _, _, rfl⟩⟩
  · rintro loop rfl
    exact ⟨h.2, h.1.rangeFor⟩

/-- What is left is a loop of the shader, too. -/
theorem Module.Admits.innermostLoop {line : Line} (h : m.Admits b kind)
    (hexit : kind.exit? = some line) : ∃ loop kind', m.innermostLoop? b = some loop ∧
      m.kind? loop = some kind' ∧ kind'.repeats = true := by
  obtain ⟨hleft, hnext, -⟩ := h.loops
  unfold Kind.exit? at hexit
  split at hexit
  · obtain ⟨loop, body, hloop, hkind⟩ := hleft rfl
    exact ⟨loop, _, hloop, hkind, rfl⟩
  · obtain ⟨loop, kind', hloop, hkind, ⟨body, rfl⟩ | ⟨bound, serial, body, rfl⟩⟩ := hnext rfl
    · exact ⟨loop, _, hloop, hkind, rfl⟩
    · exact ⟨loop, _, hloop, hkind, rfl⟩
  · cases hexit

/-- The innermost loop of the text is that of the innermost loop-like statement. -/
theorem Tracks.innermost (h : Tracks m o around (m.enclosing b))
    (hloop : m.innermostLoop? b = some loop) (hkind : m.kind? loop = some kind)
    (hrepeats : kind.repeats = true) :
    ∃ head t, around.find? Row.isLoop = some head ∧ t.id = loop ∧ m.stmts[t.id]? = some t ∧
      head.HeadOf o t := by
  obtain ⟨-, inside, outside, heq, hinside⟩ := List.find?_eq_some_iff_append.1 hloop
  have hnone : inside.filter (fun i => (m.kind? i).any Kind.repeats) = [] := by
    rw [filter_eq_nil_iff]
    intro i hi hrepeats
    have hany := hinside i hi
    cases hkind : m.kind? i with
    | none => simp [hkind] at hrepeats
    | some kind =>
      rw [hkind] at hany hrepeats
      simp [kind.isLoop_of_repeats hrepeats] at hany
  rw [Tracks, heq, filter_append, hnone, nil_append,
    filter_cons_of_pos (by simp [hkind, hrepeats])] at h
  rw [← List.head?_filter]
  cases hrows : around.filter Row.isLoop with
  | nil =>
    rw [hrows] at h
    cases h
  | cons head rows =>
    rw [hrows] at h
    cases h with
    | cons hhead =>
      obtain ⟨t, ht⟩ := hhead
      exact ⟨head, t, rfl, ht⟩

end

/-- The code of a program, with the statements of the offload that it stems from. -/
structure Marked.Stems (marked : Marked) (m : Module) (o : Offload) (p : Program) : Prop where
  outline : marked.outline = m.outlineOf m.outline o.stmts
  code : marked.code = p.shader.body
  sound : marked.Sound o

/-- **An exit is in the loop of the text that the module means.** -/
theorem Marked.Stems.exit {marked : Marked} {m : Module} {o : Offload} {p : Program} {t : Stmt}
    {line : Line} (h : marked.Stems m o p) (hinv : m.Inv) (ho : o ∈ m.groups)
    (hadmits : m.Admits t.block t.kind) (ht : t ∈ m.walked o) (hexit : t.kind.exit? = some line) :
    (∃ r ∈ marked.rows 1, r.origin = t.id) ∧
      ∀ around r, (around, r) ∈ Row.nested [] (marked.rows 1) → r.origin = t.id →
        r.content = line.text ∧ ∃ head loop, around.find? Row.isLoop = some head ∧
          m.innermostLoop? t.block = some loop.id ∧ m.stmts[loop.id]? = some loop ∧
          head.HeadOf o loop := by
  have hplaced := hinv.placed_offload ho
  have hfound := hplaced.found_of_mem ht
  rw [Module.walked, ← h.outline] at ht
  rw [← h.outline] at hplaced
  refine ⟨exists_row 1 h.sound ht hexit, fun around r hr horigin => ?_⟩
  obtain ⟨hcontent, htracks⟩ := tracks_of_nested h.sound hplaced .nil hfound hexit hr horigin
  obtain ⟨loop, kind, hloop, hkind, hrepeats⟩ := hadmits.innermostLoop hexit
  obtain ⟨head, u, hhead, rfl, hu, hheads⟩ := htracks.innermost hloop hkind hrepeats
  exact ⟨hcontent, head, u, hhead, hloop, hu, hheads⟩

namespace Session

variable {actions : List Action} {s : Session} {m : Module}

/-- **Loop exits are structured**, in modules and in the text of shaders.  Around an exit, the
innermost loop-like statement is one that it can leave, and the innermost loop of the text is the
one that stands for this statement. -/
theorem loopExits_structured (hrun : Session.run {} actions = .ok s)
    (hfinish : s.builder.finish = .ok m) :
    (∀ (i : Nat) (t : Stmt), m.stmts[i]? = some t →
      (t.kind = .exitLoop → ∃ loop body, m.innermostLoop? t.block = some loop ∧
        m.kind? loop = some (.whileTrue body)) ∧
      (t.kind = .nextIteration → ∃ loop kind, m.innermostLoop? t.block = some loop ∧
        m.kind? loop = some kind ∧ ((∃ body, kind = .whileTrue body) ∨
          ∃ bound serial body, kind = .rangeFor bound serial body)) ∧
      ∀ loop, t.kind = .loopIndex loop → loop ∈ m.enclosing t.block ∧
        ∃ bound serial body, m.kind? loop = some (.rangeFor bound serial body)) ∧
    ∀ o ∈ m.groups, ∀ signature config previous p, program m o signature config previous = .ok p →
      (∃ marked : Marked, marked.Stems m o p) ∧ ∀ marked : Marked, marked.Stems m o p →
        (∃ before after, p.shader.text =
          before ++ String.join ((marked.rows 1).map Row.text) ++ after) ∧
        ∀ t ∈ m.walked o, ∀ line, t.kind.exit? = some line →
          (∃ r ∈ marked.rows 1, r.origin = t.id) ∧
          ∀ around r, (around, r) ∈ Row.nested [] (marked.rows 1) → r.origin = t.id →
            r.content = line.text ∧ ∃ head loop, around.find? Row.isLoop = some head ∧
              m.innermostLoop? t.block = some loop.id ∧ m.stmts[loop.id]? = some loop ∧
              head.HeadOf o loop := by
  obtain ⟨hinv, hadmitted⟩ := inv_of_finish hrun hfinish
  refine ⟨fun i t ht => (hadmitted i t ht).loops, fun o ho signature config previous p hp => ?_⟩
  obtain ⟨bindings, d, hd, rfl⟩ := program_eq_ok hp
  refine ⟨?_, fun marked hmarked => ⟨?_, fun t ht line hexit => ?_⟩⟩
  · obtain ⟨marked, houtline, hcode, hsound⟩ := draft_marked hinv ho hd
    exact ⟨marked, houtline, hcode, hsound⟩
  · rw [marked.join_rows, hmarked.code]
    exact ⟨_, _, by rw [Shader.text, String.append_assoc]⟩
  · exact hmarked.exit hinv ho (hadmitted _ t ((hinv.placed_offload ho).found_of_mem ht)) ht hexit

/-- A parallel loop that skips an iteration, and in the others adds to a float until it is done. -/
def accumulate : List Action :=
  [.create (.const (.i32 8)), .create (.const (.f32 0x3f800000)),
    .create (.rangeFor (.value 0) false), .openGuard .rangeFor 2, .create (.loopIndex 2),
    .create (.branch 3), .openGuard (.branch true) 4, .create .nextIteration, .closeGuard 1,
    .create .whileTrue, .openGuard .whileTrue 6,
    .create (.globalPtr ⟨0, [8], .f32, 1, 0, 0, true⟩ [3] 0), .create (.atomic .add 7 1),
    .create (.branch 3), .openGuard (.branch true) 9, .create .exitLoop, .closeGuard 3,
    .closeGuard 2, .closeGuard 0]

/-- Statement `10` leaves the loop of `6`, behind the one that `8` needs, and `5` goes on with the
parallel loop of `2`. -/
theorem loopExits_structured_accumulate : ∃ s m p,
    Session.run {} accumulate = .ok s ∧ s.builder.finish = .ok m ∧
      m.groups = [⟨.rangeFor, [2]⟩] ∧ program m ⟨.rangeFor, [2]⟩ {} {} none = .ok p ∧
      ∃ marked : Marked, marked.Stems m ⟨.rangeFor, [2]⟩ p ∧
        ∀ x ∈ [(10, 6, "break;"), (5, 2, "continue;")], ∃ around r head,
          (around, r) ∈ Row.nested [] (marked.rows 1) ∧ r.origin = x.1 ∧ r.content = x.2.2 ∧
            around.find? Row.isLoop = some head ∧ head.origin = x.2.1 := by
  obtain ⟨s, m, p, t, u, hrun, hfinish, hgroups, hp, ht, hleft, hu, hnext⟩ : ∃ s m p t u,
      Session.run {} accumulate = .ok s ∧ s.builder.finish = .ok m ∧
        m.groups = [⟨.rangeFor, [2]⟩] ∧ program m ⟨.rangeFor, [2]⟩ {} {} none = .ok p ∧
        (m.walked ⟨.rangeFor, [2]⟩)[8]? = some t ∧
        (t.id = 10 ∧ t.kind.exit? = some .exitLoop ∧ m.innermostLoop? t.block = some 6) ∧
        (m.walked ⟨.rangeFor, [2]⟩)[3]? = some u ∧
        u.id = 5 ∧ u.kind.exit? = some .nextIteration ∧ m.innermostLoop? u.block = some 2 :=
    ⟨_, _, _, _, _, rfl, rfl, rfl, rfl, rfl, ⟨rfl, rfl, rfl⟩, rfl, rfl, rfl, rfl⟩
  obtain ⟨-, hshaders⟩ := loopExits_structured hrun hfinish
  obtain ⟨⟨marked, hmarked⟩, hexits⟩ := hshaders _ (by simp [hgroups]) _ _ _ _ hp
  have hexit {t : Stmt} {line : Line} {k : Nat} {loop : StmtId}
      (ht : (m.walked ⟨.rangeFor, [2]⟩)[k]? = some t) (hline : t.kind.exit? = some line)
      (hloop : m.innermostLoop? t.block = some loop) : ∃ around r head,
        (around, r) ∈ Row.nested [] (marked.rows 1) ∧ r.origin = t.id ∧ r.content = line.text ∧
          around.find? Row.isLoop = some head ∧ head.origin = loop := by
    obtain ⟨⟨r, hr, horigin⟩, hall⟩ :=
      (hexits marked hmarked).2 t (mem_of_getElem? ht) line hline
    obtain ⟨around, haround⟩ := Row.exists_nested [] hr
    obtain ⟨hcontent, head, v, hhead, hloop', -, hheads⟩ := hall around r haround horigin
    cases hloop.symm.trans hloop'
    exact ⟨around, r, head, haround, horigin, hcontent, hhead, hheads.origin⟩
  refine ⟨s, m, p, hrun, hfinish, hgroups, hp, marked, hmarked, ?_⟩
  rw [forall_mem_cons, forall_mem_singleton]
  exact ⟨hleft.1 ▸ hexit ht hleft.2.1 hleft.2.2, hnext.1 ▸ hexit hu hnext.2.1 hnext.2.2⟩

end Session

end WgslKernel
