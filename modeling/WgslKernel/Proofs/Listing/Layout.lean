import WgslKernel.Proofs.Decimal.Numerals
import WgslKernel.Proofs.Module.WalkOrder

/-!
# The layout of a listing

`Module.Prints` are rules on strings that follow the blocks of a module: a header for each
statement, a closing brace for each control-flow statement, a line between the blocks of a branch
whose second block is not empty, and what is nested indented further.  A listing obeys them.
-/

namespace WgslKernel

open List

/-! ## Headers are one line -/

/-- A text without line ends. -/
def OneLine (text : String) : Prop := '\n' ∉ text.toList

/-- It is decided by looking. -/
instance (text : String) : Decidable (OneLine text) := inferInstanceAs (Decidable (_ ∉ _))

@[simp] theorem oneLine_append {a b : String} : OneLine (a ++ b) ↔ OneLine a ∧ OneLine b := by
  simp [OneLine]

theorem oneLine_of_isNumeric {text : String} (h : isNumeric text = true) : OneLine text :=
  not_mem_of_isNumeric h (by decide)

@[simp] theorem oneLine_natRepr (n : Nat) : OneLine (Nat.repr n) :=
  oneLine_of_isNumeric (isNumeric_repr n)

@[simp] theorem oneLine_intRepr (n : Int) : OneLine (Int.repr n) :=
  oneLine_of_isNumeric (isNumeric_int n)

@[simp] theorem Binary32.oneLine_text (bits : UInt32) : OneLine (text bits) :=
  oneLine_of_isNumeric (isNumeric_text bits)

@[simp] theorem Prim.oneLine_name (p : Prim) : OneLine p.name := by cases p <;> decide

@[simp] theorem UnaryOp.oneLine_name (op : UnaryOp) : OneLine op.name := by
  cases op <;> decide

@[simp] theorem BinaryOp.oneLine_name (op : BinaryOp) : OneLine op.name := by cases op <;> decide

@[simp] theorem AtomicOp.oneLine_name (op : AtomicOp) : OneLine op.name := by cases op <;> decide

@[simp] theorem BuiltinInput.oneLine_name (input : BuiltinInput) : OneLine input.name := by
  cases input <;> decide

@[simp] theorem Axis.oneLine_derivative (axis : Axis) : OneLine axis.derivative := by
  cases axis <;> decide

@[simp] theorem TextureAccess.oneLine_name (access : TextureAccess) : OneLine access.name := by
  unfold name
  split <;> decide

@[simp] theorem oneLine_stmtRef (i : StmtId) : OneLine (stmtRef i) := by
  simp only [stmtRef, toString, oneLine_append]
  exact ⟨by decide, oneLine_natRepr i⟩

theorem notMem_intercalate {c : Char} {sep : String} (hsep : c ∉ sep.toList) {texts : List String}
    (h : ∀ text ∈ texts, c ∉ text.toList) : c ∉ (sep.intercalate texts).toList := by
  induction texts with
  | nil => simp
  | cons first rest ih =>
    have hrest := ih fun text ht => h text (mem_cons_of_mem _ ht)
    cases rest with
    | nil => simpa using h
    | cons second rest =>
      rw [String.intercalate_cons_cons, String.toList_append, String.toList_append,
        mem_append, mem_append]
      exact not_or.2 ⟨not_or.2 ⟨h first mem_cons_self, hsep⟩, hrest⟩

@[simp] theorem oneLine_stmtRefs (ids : List StmtId) : OneLine (stmtRefs ids) := by
  have hrefs : ∀ text ∈ ids.map stmtRef, OneLine text := by simp
  rw [stmtRefs, oneLine_append, oneLine_append]
  exact ⟨⟨by decide, notMem_intercalate (by decide) hrefs⟩, by decide⟩

@[simp] theorem Const.oneLine_describe (c : Const) : OneLine c.describe := by
  cases c with
  | i32 v =>
    simp only [describe, toString, oneLine_append]
    exact ⟨by decide, oneLine_intRepr _⟩
  | f32 bits =>
    simp only [describe, toString, oneLine_append]
    exact ⟨by decide, Binary32.oneLine_text bits⟩

@[simp] theorem RangeBound.oneLine_describe (bound : RangeBound) : OneLine bound.describe := by
  cases bound with
  | value v => exact oneLine_stmtRef v
  | field f =>
    simp only [describe, toString, oneLine_append]
    exact ⟨by decide, oneLine_natRepr f.id⟩

@[simp] theorem BuiltinOutput.oneLine_describe (output : BuiltinOutput) :
    OneLine output.describe := by
  unfold describe
  split <;> simp only [toString, oneLine_append, oneLine_natRepr, oneLine_stmtRefs, and_true] <;>
    decide

/-- A description has no line end. -/
theorem Kind.oneLine_describe (kind : Kind) : OneLine kind.describe := by
  have hserial (serial : Bool) : OneLine (if serial then " serial" else "") := by
    cases serial <;> decide
  have hoperands (ids : List StmtId) : OneLine (if ids = [] then "" else " " ++ stmtRefs ids) := by
    split
    · decide
    · exact oneLine_append.2 ⟨by decide, oneLine_stmtRefs ids⟩
  unfold describe
  split <;> try simp only [toString, oneLine_append]
  all_goals and_intros <;> first | decide | simp [hserial, hoperands]

/-- **A header never breaks its line.** -/
theorem Stmt.oneLine_header (s : Stmt) : OneLine s.header := by
  have hbrace : OneLine (if s.kind.childBlocks = [] then "" else " \x7b") := by
    split <;> decide
  simp only [header, toString, oneLine_append]
  exact ⟨⟨⟨oneLine_stmtRef s.id, by decide⟩, s.kind.oneLine_describe⟩, hbrace⟩

/-- Two spaces for each level of nesting. -/
def indentation (depth : Nat) : String := String.ofList (List.replicate (2 * depth) ' ')

/-- A line at a nesting depth. -/
def indented (depth : Nat) (content : String) : String := indentation depth ++ content ++ "\n"

/-- `m.Prints depth ids order text`: the statements `ids`, side by side at a depth, are laid out as
`text`, which has the headers of the statements `order`, those of nested statements included. -/
inductive Module.Prints (m : Module) : Nat → List StmtId → List StmtId → String → Prop where
  | nil {depth : Nat} : Prints m depth [] [] ""
  /-- A statement without blocks is its header. -/
  | simple {depth : Nat} {i : StmtId} {ids order : List StmtId} {tail : String} {s : Stmt}
    (found : m.stmts[i]? = some s) (blocks : s.kind.childBlocks = [])
    (rest : Prints m depth ids order tail) :
    Prints m depth (i :: ids) (i :: order)
      (indented depth s!"{stmtRef i} = {s.kind.describe}" ++ tail)
  /-- A loop is its header, its block and a closing brace. -/
  | loop {depth : Nat} {i : StmtId} {ids inner order : List StmtId} {body tail : String} {s : Stmt}
    {b : BlockId} (found : m.stmts[i]? = some s) (blocks : s.kind.childBlocks = [b])
    (block : Prints m (depth + 1) (m.blockStmts b) inner body)
    (rest : Prints m depth ids order tail) :
    Prints m depth (i :: ids) (i :: (inner ++ order))
      (indented depth s!"{stmtRef i} = {s.kind.describe} \x7b" ++
        (body ++ (indented depth "\x7d" ++ tail)))
  /-- A branch with nothing in its second block looks like a loop. -/
  | branch {depth : Nat} {i : StmtId} {ids inner order : List StmtId} {body tail : String}
    {s : Stmt} {cond : StmtId} {a b : BlockId} (found : m.stmts[i]? = some s)
    (kind : s.kind = .branch cond a b) (empty : m.blockStmts b = [])
    (block : Prints m (depth + 1) (m.blockStmts a) inner body)
    (rest : Prints m depth ids order tail) :
    Prints m depth (i :: ids) (i :: (inner ++ order))
      (indented depth s!"{stmtRef i} = {s.kind.describe} \x7b" ++
        (body ++ (indented depth "\x7d" ++ tail)))
  /-- Otherwise its blocks are parted by a line of their own. -/
  | branchElse {depth : Nat} {i : StmtId} {ids inner inner' order : List StmtId}
    {body body' tail : String} {s : Stmt} {cond : StmtId} {a b : BlockId}
    (found : m.stmts[i]? = some s) (kind : s.kind = .branch cond a b)
    (nonempty : m.blockStmts b ≠ [])
    (block : Prints m (depth + 1) (m.blockStmts a) inner body)
    (block' : Prints m (depth + 1) (m.blockStmts b) inner' body')
    (rest : Prints m depth ids order tail) :
    Prints m depth (i :: ids) (i :: (inner ++ (inner' ++ order)))
      (indented depth s!"{stmtRef i} = {s.kind.describe} \x7b" ++
        (body ++ (indented depth "\x7d else \x7b" ++ (body' ++ (indented depth "\x7d" ++ tail)))))

/-! ## Lines of an outline -/

namespace Listing

@[simp] theorem text_nil : (Listing.mk []).text = "" := rfl

@[simp] theorem text_cons (l : Line) (ls : List Line) :
    (Listing.mk (l :: ls)).text = l.text ++ (Listing.mk ls).text := by
  simp [text, String.join_cons]

@[simp] theorem text_append (ls ls' : List Line) :
    (Listing.mk (ls ++ ls')).text = (Listing.mk ls).text ++ (Listing.mk ls').text := by
  simp [text, String.join_append]

variable {depth : Nat} {s : Stmt} {first second rest : Outline}

theorem linesOf_simple (h : s.kind.childBlocks = []) :
    linesOf depth (.cons s first second rest) = .header depth s :: linesOf depth rest := by
  cases hkind : s.kind <;> simp_all [linesOf, Kind.childBlocks]

theorem linesOf_loop {b : BlockId} (h : s.kind.childBlocks = [b]) :
    linesOf depth (.cons s first second rest) =
      .header depth s :: (linesOf (depth + 1) first ++ .close depth :: linesOf depth rest) := by
  cases hkind : s.kind <;> simp_all [linesOf, Kind.childBlocks]

theorem linesOf_branch {cond : StmtId} {a b : BlockId} (h : s.kind = .branch cond a b) :
    linesOf depth (.cons s first second rest) =
      .header depth s :: (linesOf (depth + 1) first ++
        ((if second.isEmpty then [] else .otherwise depth :: linesOf (depth + 1) second) ++
          .close depth :: linesOf depth rest)) := by
  simp [linesOf, h]

namespace Line

theorem text_header_simple (h : s.kind.childBlocks = []) :
    (Line.header depth s).text = indented depth s!"{stmtRef s.id} = {s.kind.describe}" := by
  have hheader : s.header = s!"{stmtRef s.id} = {s.kind.describe}" := by
    rw [Stmt.header, if_pos h, String.append_empty]
  rw [← hheader]
  rfl

theorem text_header_block (h : s.kind.childBlocks ≠ []) :
    (Line.header depth s).text = indented depth s!"{stmtRef s.id} = {s.kind.describe} \x7b" := by
  have hheader : s.header = s!"{stmtRef s.id} = {s.kind.describe} \x7b" := by
    rw [Stmt.header, if_neg h]
    rfl
  rw [← hheader]
  rfl

theorem text_otherwise : (Line.otherwise depth).text = indented depth "\x7d else \x7b" := rfl

theorem text_close : (Line.close depth).text = indented depth "\x7d" := rfl

end Line

end Listing

/-- A statement owns no block, one, or two. -/
theorem Kind.childBlocks_cases (kind : Kind) :
    kind.childBlocks = [] ∨ (∃ b, kind.childBlocks = [b]) ∨
      ∃ cond a b, kind = .branch cond a b := by
  cases kind <;> simp [childBlocks]

namespace Module

variable {m : Module} {b : BlockId} {ids : List StmtId}

theorem Inv.isEmpty_outline (h : m.Inv) (b : BlockId) :
    (m.outline b).isEmpty = true ↔ m.blockStmts b = [] := by
  rw [h.outline_eq]
  cases hids : m.blockStmts b with
  | nil => simp [outlineOf, Outline.isEmpty]
  | cons i ids =>
    obtain ⟨s, hs, -⟩ := h.of_mem_blockStmts (hids ▸ mem_cons_self : i ∈ m.blockStmts b)
    simp [outlineOf_cons hs, Outline.isEmpty]

/-- Statements of a block are laid out by the rules if the blocks inside it are. -/
theorem Inv.prints_outlineOf (h : m.Inv)
    (hblocks : ∀ c, m.parent? c = some b → ∀ depth, m.Prints depth (m.blockStmts c)
      (m.outline c).ids (Listing.mk (Listing.linesOf depth (m.outline c))).text)
    (depth : Nat) (hids : ∀ i ∈ ids, i ∈ m.blockStmts b) :
    m.Prints depth ids (m.outlineOf m.outline ids).ids
      (Listing.mk (Listing.linesOf depth (m.outlineOf m.outline ids))).text := by
  induction ids with
  | nil => exact .nil
  | cons i ids ih =>
    have hrest := ih fun j hj => hids j (mem_cons_of_mem _ hj)
    obtain ⟨s, hs, rfl⟩ := h.of_mem_blockStmts (hids i mem_cons_self)
    obtain rfl := h.id_eq hs
    have hchild {c : BlockId} (hc : c ∈ s.kind.childBlocks) :=
      hblocks c (h.parent?_child hs hc) (depth + 1)
    rw [outlineOf_cons hs, Outline.ids_cons]
    rcases s.kind.childBlocks_cases with hnone | ⟨c, hone⟩ | ⟨cond, a, c, hkind⟩
    · have hprints := Prints.simple hs hnone hrest
      rw [← Listing.Line.text_header_simple hnone, ← Listing.text_cons] at hprints
      simpa [below, hnone, Listing.linesOf_simple hnone] using hprints
    · have hprints := Prints.loop hs hone (hchild (by simp [hone])) hrest
      rw [← Listing.Line.text_header_block (by simp [hone]), ← Listing.Line.text_close] at hprints
      simpa [below, hone, Listing.linesOf_loop hone] using hprints
    · have hkids : s.kind.childBlocks = [a, c] := by rw [hkind, Kind.childBlocks]
      have hheader : (Listing.Line.header depth s).text = _ :=
        Listing.Line.text_header_block (by simp [hkids])
      have hfirst := hchild (c := a) (by simp [hkids])
      rw [Listing.linesOf_branch hkind]
      cases hempty : (m.outline c).isEmpty with
      | true =>
        have hnil := (h.isEmpty_outline c).1 hempty
        have hprints := Prints.branch hs hkind hnil hfirst hrest
        rw [← hheader, ← Listing.Line.text_close] at hprints
        have hids : (m.outline c).ids = [] := by
          rw [h.outline_eq, hnil]
          rfl
        simpa [below, hkids, hempty, hids] using hprints
      | false =>
        have hcons : m.blockStmts c ≠ [] := fun hnil => by
          simp [(h.isEmpty_outline c).2 hnil] at hempty
        have hprints := Prints.branchElse hs hkind hcons hfirst (hchild (by simp [hkids])) hrest
        rw [← hheader, ← Listing.Line.text_close, ← Listing.Line.text_otherwise] at hprints
        simpa [below, hkids, hempty] using hprints

/-- **Listings are laid out by the rules**, with a header for each statement. -/
theorem Inv.prints (h : m.Inv) :
    m.Prints 0 (m.blockStmts rootBlock) m.walk (Listing.ofModule m).text := by
  refine h.block_induction (P := fun b => ∀ depth, m.Prints depth (m.blockStmts b)
    (m.outline b).ids (Listing.mk (Listing.linesOf depth (m.outline b))).text) ?_ rootBlock 0
  intro b hblocks depth
  rw [h.outline_eq]
  exact h.prints_outlineOf hblocks depth fun _ hi => hi

end Module

theorem Listing.mem_linesOf_cons {depth : Nat} {s : Stmt} {first second rest : Outline}
    {l : Listing.Line} (h : l ∈ linesOf depth (.cons s first second rest)) (hl : l.stmt? ≠ none) :
    l = .header depth s ∨ l ∈ linesOf (depth + 1) first ∨ l ∈ linesOf (depth + 1) second ∨
      l ∈ linesOf depth rest := by
  have hotherwise : l ≠ .otherwise depth := fun heq => hl (heq ▸ rfl)
  have hclose : l ≠ .close depth := fun heq => hl (heq ▸ rfl)
  rcases s.kind.childBlocks_cases with hnone | ⟨c, hone⟩ | ⟨cond, a, c, hkind⟩
  · rw [linesOf_simple hnone] at h
    grind
  · rw [linesOf_loop hone] at h
    grind
  · rw [linesOf_branch hkind] at h
    grind

/-- Headers stand as deep as their statements are nested. -/
theorem Outline.Placed.depth_of_mem {m : Module} {walked visible around : List StmtId}
    {o : Outline} (h : o.Placed m walked visible around) {d : Nat} {s : Stmt}
    (hmem : .header d s ∈ Listing.linesOf around.length o) :
    m.stmts[s.id]? = some s ∧ d = (m.enclosing s.block).length := by
  induction h with
  | nil => cases hmem
  | cons found _ _ inside _ _ _ ihFirst ihSecond ihRest =>
    rcases Listing.mem_linesOf_cons hmem (by simp [Listing.Line.stmt?]) with hl | hl | hl | hl
    · cases hl
      exact ⟨found, by rw [inside]⟩
    · exact ihFirst hl
    · exact ihSecond hl
    · exact ihRest hl

/-- Headers are indented by the nesting. -/
theorem Module.Inv.depth_of_mem_lines {m : Module} (h : m.Inv) {d : Nat} {s : Stmt}
    (hmem : .header d s ∈ (Listing.ofModule m).lines) :
    m.stmts[s.id]? = some s ∧ d = (m.enclosing s.block).length := by
  have hnodup : (m.blockStmts rootBlock).Nodup :=
    (h.wellFormed.ascending rootBlock).imp fun hlt => Nat.ne_of_lt hlt
  have hplaced := h.placed rootBlock hnodup (fun _ hi => hi) (.start rootBlock _)
  rw [← h.outline_eq, h.enclosing_root] at hplaced
  exact hplaced.depth_of_mem hmem

end WgslKernel
