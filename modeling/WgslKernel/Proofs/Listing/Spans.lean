import Mathlib.Data.String.Basic
import WgslKernel.Diagnostic.Basic
import WgslKernel.Proofs.Blame.Kernels
import WgslKernel.Proofs.Listing.Layout

/-!
# Spans of headers

A span is a pair of byte offsets, found by adding up the lengths of lines.  It cuts out the header
of its statement, behind the indentation and before the line end, and spans lie apart.
-/

namespace WgslKernel

open List

/-! ## Cutting a text -/

namespace Span

variable {s : Span} {pos : Nat} {cs cs' : List Char}

attribute [local simp] sliceFrom

theorem sliceFrom_append :
    s.sliceFrom pos (cs ++ cs') =
      s.sliceFrom pos cs ++ s.sliceFrom (pos + String.utf8Len cs) cs' := by
  induction cs generalizing pos with
  | nil => rfl
  | cons c cs ih =>
    have hpos : pos + c.utf8Size + String.utf8Len cs = pos + String.utf8Len (c :: cs) := by
      rw [String.utf8Len_cons]
      omega
    simp only [cons_append, sliceFrom, ih, hpos]
    split <;> rfl

theorem sliceFrom_before (h : pos + String.utf8Len cs ≤ s.start) : s.sliceFrom pos cs = [] := by
  induction cs generalizing pos with
  | nil => rfl
  | cons c cs ih =>
    rw [String.utf8Len_cons] at h
    have hsize := c.utf8Size_pos
    rw [sliceFrom, if_neg (by omega), ih (by omega)]

theorem sliceFrom_behind (h : s.stop ≤ pos) : s.sliceFrom pos cs = [] := by
  induction cs generalizing pos with
  | nil => rfl
  | cons c cs ih => rw [sliceFrom, if_neg (by omega), ih (by omega)]

theorem sliceFrom_within (hstart : s.start ≤ pos) (hstop : pos + String.utf8Len cs ≤ s.stop) :
    s.sliceFrom pos cs = cs := by
  induction cs generalizing pos with
  | nil => rfl
  | cons c cs ih =>
    rw [String.utf8Len_cons] at hstop
    have hsize := c.utf8Size_pos
    rw [sliceFrom, if_pos (by omega), ih (by omega) (by omega)]

/-- A span that begins where a piece of text does, and is as long, cuts out that piece. -/
theorem slice_append {before piece after : String} (hstart : s.start = before.utf8ByteSize)
    (hstop : s.stop = s.start + piece.utf8ByteSize) :
    s.slice (before ++ piece ++ after) = piece := by
  have hbefore : s.sliceFrom 0 before.toList = [] := sliceFrom_before (by simp [hstart])
  have hpiece : s.sliceFrom (0 + String.utf8Len before.toList) piece.toList = piece.toList :=
    sliceFrom_within (by simp [hstart]) (by simp [hstart, hstop])
  have hafter :
      s.sliceFrom (0 + String.utf8Len (before.toList ++ piece.toList)) after.toList = [] :=
    sliceFrom_behind (by simp [hstart, hstop])
  rw [slice, String.toList_append, String.toList_append, sliceFrom_append, sliceFrom_append,
    hbefore, hpiece, hafter, nil_append, append_nil, String.ofList_toList]

end Span

/-! ## The span of a header -/

namespace Listing

variable {ls before after : List Line} {l : Line} {id i j : StmtId} {pos : Nat}

attribute [local simp] spanFrom

theorem Line.isHeaderOf_iff : l.isHeaderOf id = true ↔ l.stmt? = some id := by
  cases l <;> simp [isHeaderOf, stmt?]

/-- The header of a statement is behind all lines that are not. -/
theorem spanFrom_eq (hbefore : ∀ k ∈ before, k.stmt? ≠ some id) (hl : l.stmt? = some id) :
    spanFrom id pos (before ++ l :: after) =
      ⟨pos + (Listing.mk before).text.utf8ByteSize + l.indent.utf8ByteSize,
        pos + (Listing.mk before).text.utf8ByteSize + l.indent.utf8ByteSize +
          l.content.utf8ByteSize⟩ := by
  induction before generalizing pos with
  | nil => simp [Line.isHeaderOf_iff.2 hl]
  | cons k before ih =>
    have hk : k.isHeaderOf id ≠ true := fun h =>
      hbefore k mem_cons_self (Line.isHeaderOf_iff.1 h)
    rw [cons_append, spanFrom, if_neg hk, ih fun k hk => hbefore k (mem_cons_of_mem _ hk),
      text_cons, String.utf8ByteSize_append, Nat.add_assoc pos]

theorem mem_of_not_isHeaderOf (h : id ∈ (l :: ls).filterMap Line.stmt?)
    (hl : ¬ l.isHeaderOf id = true) : id ∈ ls.filterMap Line.stmt? := by
  rw [Line.isHeaderOf_iff] at hl
  simp only [mem_filterMap, mem_cons, exists_eq_or_imp] at h ⊢
  exact h.resolve_left hl

/-- A line begins where the span of its header would, at the earliest. -/
theorem spanFrom_start_le (h : id ∈ ls.filterMap Line.stmt?) :
    pos ≤ (spanFrom id pos ls).start := by
  induction ls generalizing pos with
  | nil => cases h
  | cons l ls ih =>
    rw [spanFrom]
    split
    · exact Nat.le_add_right _ _
    · rename_i hl
      exact Nat.le_trans (Nat.le_add_right _ _) (ih (mem_of_not_isHeaderOf h hl))

theorem spanFrom_stop_le_of_header (hi : l.isHeaderOf i = true) (hj : ¬ l.isHeaderOf j = true)
    (hmem : j ∈ (l :: ls).filterMap Line.stmt?) :
    (spanFrom i pos (l :: ls)).stop ≤ (spanFrom j pos (l :: ls)).start := by
  rw [spanFrom, if_pos hi, spanFrom, if_neg hj]
  refine Nat.le_trans ?_ (spanFrom_start_le (mem_of_not_isHeaderOf hmem hj))
  simp only [Line.text, String.utf8ByteSize_append]
  omega

/-- **Spans of different statements lie apart.** -/
theorem spanFrom_disjoint (hi : i ∈ ls.filterMap Line.stmt?) (hj : j ∈ ls.filterMap Line.stmt?)
    (hne : i ≠ j) :
    (spanFrom i pos ls).stop ≤ (spanFrom j pos ls).start ∨
      (spanFrom j pos ls).stop ≤ (spanFrom i pos ls).start := by
  induction ls generalizing pos with
  | nil => cases hi
  | cons l ls ih =>
    by_cases hli : l.isHeaderOf i = true
    · refine .inl (spanFrom_stop_le_of_header hli (fun hlj => hne ?_) hj)
      rw [Line.isHeaderOf_iff] at hli hlj
      exact Option.some.inj (hli.symm.trans hlj)
    by_cases hlj : l.isHeaderOf j = true
    · exact .inr (spanFrom_stop_le_of_header hlj hli hi)
    · rw [spanFrom, if_neg hli, spanFrom, if_neg hlj]
      exact ih (mem_of_not_isHeaderOf hi hli) (mem_of_not_isHeaderOf hj hlj)

/-- The first header of a statement among lines. -/
theorem exists_header (h : id ∈ ls.filterMap Line.stmt?) :
    ∃ before depth s after, ls = before ++ .header depth s :: after ∧ s.id = id ∧
      ∀ k ∈ before, k.stmt? ≠ some id := by
  induction ls with
  | nil => cases h
  | cons l ls ih =>
    by_cases hl : l.stmt? = some id
    · cases l with
      | header depth s => exact ⟨[], depth, s, ls, rfl, Option.some.inj hl, by simp⟩
      | otherwise | close => cases hl
    · obtain ⟨before, depth, s, after, rfl, hid, hbefore⟩ :=
        ih (mem_of_not_isHeaderOf h fun hh => hl (Line.isHeaderOf_iff.1 hh))
      refine ⟨l :: before, depth, s, after, rfl, hid, ?_⟩
      simpa using ⟨hl, hbefore⟩

/-- Lines end in a line end. -/
theorem text_eq_empty_or (ls : List Line) :
    (Listing.mk ls).text = "" ∨ ∃ lines, (Listing.mk ls).text = lines ++ "\n" := by
  rcases eq_nil_or_concat ls with rfl | ⟨init, l, rfl⟩
  · exact .inl rfl
  · refine .inr ⟨(Listing.mk init).text ++ (l.indent ++ l.content), ?_⟩
    simp [Line.text, String.append_assoc]

/-- The span of statement `id` is that of `header`, on a line of its own at a depth. -/
def Locates (l : Listing) (id : StmtId) (depth : Nat) (header : String) : Prop :=
  ∃ before after, l.text = before ++ indentation depth ++ header ++ ("\n" ++ after) ∧
    (before = "" ∨ ∃ lines, before = lines ++ "\n") ∧
    (l.span id).start = (before ++ indentation depth).utf8ByteSize ∧
    (l.span id).stop = (l.span id).start + header.utf8ByteSize

/-- The span cuts out the header. -/
theorem Locates.slice {l : Listing} {depth : Nat} {header : String}
    (h : l.Locates id depth header) : (l.span id).slice l.text = header := by
  obtain ⟨before, after, htext, -, hstart, hstop⟩ := h
  rw [htext]
  exact Span.slice_append hstart hstop

theorem Locates.span_ne {l : Listing} {depth : Nat} {header : String}
    (h : l.Locates id depth header) (hne : header ≠ "") : l.span id ≠ {} := by
  obtain ⟨before, after, -, -, -, hstop⟩ := h
  intro hspan
  rw [hspan] at hstop
  exact hne (String.utf8ByteSize_eq_zero_iff.1 (by simpa using hstop.symm))

end Listing

theorem Stmt.header_ne_empty (s : Stmt) : s.header ≠ "" := by
  simp [header, stmtRef, toString]

namespace Module

variable {m : Module} {i : StmtId} {t : Stmt}

/-- **Every statement is located**, as deep as it is nested. -/
theorem Inv.locates (h : m.Inv) (ht : m.stmts[i]? = some t) :
    (Listing.ofModule m).Locates i (m.enclosing t.block).length t.header := by
  have hmem : i ∈ (Listing.ofModule m).lines.filterMap Listing.Line.stmt? := by
    rw [m.filterMap_lines, h.walk_perm.mem_iff, mem_range]
    exact (Array.getElem?_eq_some_iff.1 ht).1
  obtain ⟨before, depth, s, after, hlines, rfl, hbefore⟩ := Listing.exists_header hmem
  obtain ⟨hs, rfl⟩ := h.depth_of_mem_lines (d := depth) (s := s) (by simp [hlines])
  obtain rfl : t = s := Option.some.inj (ht.symm.trans hs)
  refine ⟨(Listing.mk before).text, (Listing.mk after).text, ?_, Listing.text_eq_empty_or before,
    ?_⟩
  · have hlisting : Listing.ofModule m = ⟨before ++ .header _ t :: after⟩ :=
      congrArg Listing.mk hlines
    rw [hlisting]
    simp [Listing.Line.text, Listing.Line.indent, Listing.Line.depth, Listing.Line.content,
      indentation, String.append_assoc]
  · have hspan : (Listing.ofModule m).span t.id = _ :=
      (congrArg (Listing.spanFrom t.id 0) hlines).trans (Listing.spanFrom_eq hbefore rfl)
    rw [hspan, String.utf8ByteSize_append, Nat.zero_add]
    exact ⟨rfl, rfl⟩

/-- Spans of two statements lie apart. -/
theorem Inv.span_disjoint (h : m.Inv) {j : StmtId} (hi : i < m.stmts.size) (hj : j < m.stmts.size)
    (hne : i ≠ j) :
    ((Listing.ofModule m).span i).stop ≤ ((Listing.ofModule m).span j).start ∨
      ((Listing.ofModule m).span j).stop ≤ ((Listing.ofModule m).span i).start := by
  have hmem {k : StmtId} (hk : k < m.stmts.size) :
      k ∈ (Listing.ofModule m).lines.filterMap Listing.Line.stmt? := by
    rw [m.filterMap_lines, h.walk_perm.mem_iff]
    exact mem_range.2 hk
  exact Listing.spanFrom_disjoint (hmem hi) (hmem hj) hne

end Module

namespace Session

variable {actions : List Action} {s : Session}

/-- **Listings and diagnostics point at the right line.**  At any point of a session, the listing is
laid out by the rules, with the header of every statement in it once.  The span of a statement is
that of its header: on a line of its own, indented as deep as the statement is nested, and apart
from the spans of all other statements.  An error of the compiler is about a statement that is
there, and its diagnostic points at the header of that statement. -/
theorem listing_pinpoints (hrun : Session.run {} actions = .ok s) :
    let m := s.builder.module
    let l := Listing.ofModule m
    let header (i : StmtId) (t : Stmt) :=
      s!"{stmtRef i} = {t.kind.describe}" ++ (if t.kind.childBlocks = [] then "" else " \x7b")
    (∃ order, order.Perm (List.range m.stmts.size) ∧
      m.Prints 0 (m.blockStmts rootBlock) order l.text) ∧
    (∀ i t, m.stmts[i]? = some t →
      OneLine (header i t) ∧ l.Locates i (m.enclosing t.block).length (header i t) ∧
        (l.span i).slice l.text = header i t) ∧
    (∀ i j, i < m.stmts.size → j < m.stmts.size → i ≠ j →
      (l.span i).stop ≤ (l.span j).start ∨ (l.span j).stop ≤ (l.span i).start) ∧
    ∀ finished, s.builder.finish = .ok finished → ∀ signature config e,
      compile finished signature config = .error (.error e) →
        ∃ t, m.stmts[e.stmt]? = some t ∧
          (Diagnostic.ofError e (.ofModule finished)).span ≠ {} ∧
          (Diagnostic.ofError e (.ofModule finished)).span.slice (Listing.ofModule finished).text =
            header e.stmt t := by
  have hinv := (inv_of_run hrun).module
  refine ⟨⟨_, hinv.walk_perm, hinv.prints⟩, fun i t ht => ?_, fun i j => hinv.span_disjoint, ?_⟩
  · obtain rfl := hinv.id_eq ht
    exact ⟨t.oneLine_header, hinv.locates ht, (hinv.locates ht).slice⟩
  · intro finished hfinish signature config e herror
    obtain rfl := module_of_finish hfinish
    obtain ⟨t, ht⟩ := hinv.exists_of_compile_eq_error (inv_of_finish hrun hfinish).2 herror
    have hlocates := hinv.locates ht
    have hid := hinv.id_eq ht
    exact ⟨t, ht, hlocates.span_ne t.header_ne_empty, hid ▸ hlocates.slice⟩

/-- The diagnostic is about statement 8. -/
theorem listing_pinpoints_leaking :
    ∃ s m t, Session.run {} leaking = .ok s ∧ s.builder.finish = .ok m ∧
      m.stmts[8]? = some t ∧ (m.enclosing t.block).length = 2 ∧
      compile m ⟨4, 0⟩ {} = .error (.error (.crossOffloadReference 8 0)) ∧
      (Diagnostic.ofError (.crossOffloadReference 8 0) (.ofModule m)).span.slice
        (Listing.ofModule m).text = "%8 = add %5 %0" := by
  have hrun : ∃ s m t, Session.run {} leaking = .ok s ∧ s.builder.finish = .ok m ∧
      s.builder.module.stmts[8]? = some t ∧ (m.enclosing t.block).length = 2 ∧
      compile m ⟨4, 0⟩ {} = .error (.error (.crossOffloadReference 8 0)) ∧
      t.kind = .binary .add 5 0 := ⟨_, _, _, rfl, rfl, rfl, rfl, rfl, rfl⟩
  obtain ⟨s, m, t, hrun, hfinish, ht, hdepth, herror, hkind⟩ := hrun
  obtain ⟨-, -, -, hpoints⟩ := listing_pinpoints hrun
  obtain ⟨u, hu, -, hslice⟩ := hpoints m hfinish _ _ _ herror
  obtain rfl : t = u := Option.some.inj (ht.symm.trans hu)
  simp only [hkind] at hslice
  exact ⟨s, m, t, hrun, hfinish, module_of_finish hfinish ▸ ht, hdepth, herror,
    hslice.trans (by decide)⟩

end Session

end WgslKernel
