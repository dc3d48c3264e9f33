import WgslKernel.Proofs.Listing.Grammar

/-!
# Listings are unambiguous

Modules that were built step by step and have the same listing are the same, up to what a listing
leaves out: a text falls into lines, lines fold into one outline only, and blocks are numbered in
the order in which statements make them.
-/

namespace WgslKernel

open List

/-- What a header shows of a statement. -/
def Stmt.shown (s : Stmt) : Stmt := ⟨s.id, 0, s.kind.shown⟩

theorem Stmt.header_cons (s : Stmt) : ∃ cs, s.header.toList = '%' :: cs := by
  have hsign : "%".toList = ['%'] := String.toList_ofList
  rw [header]
  simp only [toString, stmtRef, String.toList_append, hsign, List.append_assoc, cons_append]
  exact ⟨_, rfl⟩

namespace Listing

/-! ## Lines of a text -/

namespace Line

/-- What the text of a line shows. -/
def shown : Line → Line
  | header depth s => header depth s.shown
  | otherwise depth => otherwise depth
  | close depth => close depth

variable {l l' : Line}

/-- Headers begin with a sign of their own, the other lines with a brace. -/
theorem header_ne_brace {s : Stmt} {text : String} {cs : List Char}
    (h : text.toList = '\x7d' :: cs) : s.header ≠ text := by
  rintro rfl
  obtain ⟨cs', hheader⟩ := s.header_cons
  rw [hheader] at h
  exact absurd (List.cons.inj h).1 (by decide)

/-- The content of a line tells what is shown. -/
theorem shown_of_content_eq (hdepth : l.depth = l'.depth) (h : l.content = l'.content) :
    l.shown = l'.shown := by
  cases l with
  | header d s =>
    cases l' with
    | header d' s' =>
      obtain ⟨hid, hkind⟩ := Stmt.shown_of_header_eq h
      obtain rfl : d = d' := hdepth
      rw [shown, shown, Stmt.shown, Stmt.shown, hid, hkind]
    | otherwise => exact absurd h (header_ne_brace String.toList_ofList)
    | close => exact absurd h (header_ne_brace String.toList_ofList)
  | otherwise d =>
    cases l' with
    | header => exact absurd h.symm (header_ne_brace String.toList_ofList)
    | otherwise d' => exact congrArg otherwise hdepth
    | close => exact absurd h (by decide : "\x7d else \x7b" ≠ "\x7d")
  | close d =>
    cases l' with
    | header => exact absurd h.symm (header_ne_brace String.toList_ofList)
    | otherwise => exact absurd h (by decide : "\x7d" ≠ "\x7d else \x7b")
    | close d' => exact congrArg close hdepth

theorem stops_content (l : Line) : Reader.Stops (· == ' ') l.content.toList := by
  cases l with
  | header d s =>
    obtain ⟨cs, hheader⟩ := s.header_cons
    simp [content, hheader, Reader.Stops]
  | otherwise => simp [content, Reader.Stops]
  | close => simp [content, Reader.Stops]

theorem oneLine_content (l : Line) : OneLine l.content := by
  cases l with
  | header _ s => exact s.oneLine_header
  | otherwise => exact (by decide : OneLine "\x7d else \x7b")
  | close => exact (by decide : OneLine "\x7d")

theorem toList_text (l : Line) :
    l.text.toList = List.replicate (2 * l.depth) ' ' ++ l.content.toList ++ ['\n'] := by
  have hend : "\n".toList = ['\n'] := String.toList_ofList
  rw [text, String.toList_append, String.toList_append, indent, String.toList_ofList, hend]

theorem ne_newline (l : Line) :
    ∀ c ∈ List.replicate (2 * l.depth) ' ' ++ l.content.toList, (c != '\n') = true := by
  intro c hc
  rw [bne_iff_ne]
  rintro rfl
  rcases mem_append.1 hc with hc | hc
  · exact absurd (eq_of_mem_replicate hc) (by decide)
  · exact l.oneLine_content hc

/-- A line ends at its line end, and is indented by the blanks in front. -/
theorem shown_of_text_append_eq {cs cs' : List Char}
    (h : l.text.toList ++ cs = l'.text.toList ++ cs') : l.shown = l'.shown ∧ cs = cs' := by
  have hblank (n : Nat) : ∀ c ∈ List.replicate n ' ', (c == ' ') = true := fun c hc => by
    rw [eq_of_mem_replicate hc]
    rfl
  have hend (cs : List Char) : Reader.Stops (· != '\n') (['\n'] ++ cs) := by simp [Reader.Stops]
  rw [toList_text, toList_text, List.append_assoc _ ['\n'], List.append_assoc _ ['\n']] at h
  obtain ⟨hline, hrest⟩ :=
    Reader.append_inj_of_stops l.ne_newline l'.ne_newline (hend cs) (hend cs') h
  obtain ⟨hindent, hcontent⟩ := Reader.append_inj_of_stops (hblank _) (hblank _) l.stops_content
    l'.stops_content hline
  have hdepth := congrArg List.length hindent
  rw [length_replicate, length_replicate] at hdepth
  refine ⟨shown_of_content_eq (by omega) (String.toList_inj.1 hcontent), ?_⟩
  exact (List.cons.inj hrest).2

end Line

/-- **Equal texts show equal lines.** -/
theorem shown_of_text_eq {ls ls' : List Line} (h : (Listing.mk ls).text = (Listing.mk ls').text) :
    ls.map Line.shown = ls'.map Line.shown := by
  have hne (l : Line) (ls : List Line) : (Listing.mk (l :: ls)).text ≠ "" := fun h => by
    have hnil := congrArg String.toList h
    rw [text_cons, String.toList_append, Line.toList_text] at hnil
    simp at hnil
  induction ls generalizing ls' with
  | nil =>
    cases ls' with
    | nil => rfl
    | cons l' ls' => exact absurd h.symm (hne l' ls')
  | cons l ls ih =>
    cases ls' with
    | nil => exact absurd h (hne l ls)
    | cons l' ls' =>
      rw [text_cons, text_cons] at h
      have hlist := congrArg String.toList h
      rw [String.toList_append, String.toList_append] at hlist
      obtain ⟨hline, hrest⟩ := Line.shown_of_text_append_eq hlist
      rw [map_cons, map_cons, hline, ih (String.toList_inj.1 hrest)]

end Listing

/-! ## Outlines of lines -/

namespace Outline

/-- What a listing shows of an outline. -/
def shown : Outline → Outline
  | nil => nil
  | cons s first second rest => cons s.shown first.shown second.shown rest.shown

theorem Owned.shown {o : Outline} (h : o.Owned) : o.shown.Owned := by
  induction o with
  | nil => trivial
  | cons s first second rest ihFirst ihSecond ihRest =>
    obtain ⟨hfirst, hsecond, hf, hs, hr⟩ := h
    have hlength : s.shown.kind.childBlocks.length = s.kind.childBlocks.length :=
      s.kind.length_childBlocks_shown
    refine ⟨fun h => ?_, fun h => ?_, ihFirst hf, ihSecond hs, ihRest hr⟩
    · rw [hfirst (by omega)]
      rfl
    · rw [hsecond (by omega)]
      rfl

theorem isEmpty_shown (o : Outline) : o.shown.isEmpty = o.isEmpty := by
  cases o <;> rfl

theorem stmts_shown (o : Outline) : o.shown.stmts = o.stmts.map Stmt.shown := by
  induction o with
  | nil => rfl
  | cons s first second rest ihFirst ihSecond ihRest =>
    simp [shown, stmts, ihFirst, ihSecond, ihRest]

end Outline

namespace Listing

/-- The lines of what is shown. -/
theorem linesOf_shown (o : Outline) (depth : Nat) :
    linesOf depth o.shown = (linesOf depth o).map Line.shown := by
  induction o generalizing depth with
  | nil => rfl
  | cons s first second rest ihFirst ihSecond ihRest =>
    have hlength := s.kind.length_childBlocks_shown
    rw [Outline.shown]
    rcases s.kind.childBlocks_cases with hnone | ⟨c, hone⟩ | ⟨cond, a, c, hkind⟩
    · have hnone' : s.shown.kind.childBlocks = [] := by
        rw [hnone] at hlength
        exact length_eq_zero_iff.1 hlength
      rw [linesOf_simple hnone, linesOf_simple hnone', ihRest]
      rfl
    · obtain ⟨c', hone'⟩ : ∃ c', s.shown.kind.childBlocks = [c'] := by
        rw [hone] at hlength
        exact length_eq_one_iff.1 hlength
      rw [linesOf_loop hone, linesOf_loop hone', ihFirst, ihRest]
      simp [Line.shown]
    · have hkind' : s.shown.kind = .branch cond 0 0 := by
        rw [Stmt.shown, hkind]
        rfl
      rw [linesOf_branch hkind, linesOf_branch hkind', ihFirst, ihSecond, ihRest,
        Outline.isEmpty_shown]
      split <;> simp [Line.shown]

/-- Lines that do not go on with a header. -/
def NoHeader (ls : List Line) : Prop := ∀ l ∈ ls.head?, l.stmt? = none

theorem noHeader_cons {l : Line} (h : l.stmt? = none) (ls : List Line) : NoHeader (l :: ls) := by
  rintro _ ⟨⟩
  exact h

theorem linesOf_cons (depth : Nat) (s : Stmt) (first second rest : Outline) :
    ∃ ls, linesOf depth (.cons s first second rest) = .header depth s :: ls := by
  rw [linesOf]
  exact ⟨_, rfl⟩

theorem not_noHeader_linesOf {depth : Nat} {s : Stmt} {first second rest : Outline}
    {ls : List Line} : ¬NoHeader (linesOf depth (.cons s first second rest) ++ ls) := by
  obtain ⟨ls', hls'⟩ := linesOf_cons depth s first second rest
  rw [hls']
  intro h
  exact Option.some_ne_none _ (h _ rfl)

/-- **Lines come from one outline**: a block ends where the next line is no header. -/
theorem outline_of_lines_eq {o o' : Outline} (ho : o.Owned) (ho' : o'.Owned) {depth : Nat}
    {ls ls' : List Line} (hls : NoHeader ls) (hls' : NoHeader ls')
    (h : linesOf depth o ++ ls = linesOf depth o' ++ ls') : o = o' ∧ ls = ls' := by
  -- What follows is arbitrary, so that the hypotheses serve for the lines inside a block too.
  induction o generalizing o' depth ls ls' with
  | nil =>
    cases o' with
    | nil => exact ⟨rfl, h⟩
    | cons =>
      have heq : ls = _ := h
      exact absurd (heq ▸ hls) not_noHeader_linesOf
  | cons s first second rest ihFirst ihSecond ihRest =>
    cases o' with
    | nil =>
      have heq : _ = ls' := h
      exact absurd (heq ▸ hls') not_noHeader_linesOf
    | cons s' first' second' rest' =>
      obtain ⟨hfirst, hsecond, hf, hs, hr⟩ := ho
      obtain ⟨hfirst', hsecond', hf', hs', hr'⟩ := ho'
      obtain rfl : s = s' := by
        obtain ⟨_, hhead⟩ := linesOf_cons depth s first second rest
        obtain ⟨_, hhead'⟩ := linesOf_cons depth s' first' second' rest'
        rw [hhead, hhead', cons_append, cons_append] at h
        exact (Line.header.inj (List.cons.inj h).1).2
      have hclose (ls : List Line) : NoHeader (.close depth :: ls) := noHeader_cons rfl ls
      have hotherwise (ls : List Line) : NoHeader (.otherwise depth :: ls) := noHeader_cons rfl ls
      rcases s.kind.childBlocks_cases with hnone | ⟨c, hone⟩ | ⟨cond, a, c, hkind⟩
      · rw [linesOf_simple hnone, linesOf_simple hnone] at h
        obtain ⟨rfl, rfl⟩ := ihRest hr hr' hls hls' (List.cons.inj h).2
        rw [hnone, length_nil] at hfirst hfirst' hsecond hsecond'
        rw [hfirst rfl, hfirst' rfl, hsecond (by decide), hsecond' (by decide)]
        exact ⟨rfl, rfl⟩
      · rw [linesOf_loop hone, linesOf_loop hone] at h
        simp only [cons_append, List.append_assoc] at h
        obtain ⟨rfl, htail⟩ := ihFirst hf hf' (hclose _) (hclose _) (List.cons.inj h).2
        obtain ⟨rfl, rfl⟩ := ihRest hr hr' hls hls' (List.cons.inj htail).2
        rw [hone, length_singleton] at hsecond hsecond'
        rw [hsecond (by decide), hsecond' (by decide)]
        exact ⟨rfl, rfl⟩
      · rw [linesOf_branch hkind, linesOf_branch hkind] at h
        simp only [cons_append, List.append_assoc] at h
        have hinner := (List.cons.inj h).2
        -- Whether there is something in the second block shows in the line after the first.
        cases second with
        | nil =>
          cases second' with
          | nil =>
            obtain ⟨rfl, htail⟩ := ihFirst hf hf' (hclose _) (hclose _) hinner
            obtain ⟨rfl, rfl⟩ := ihRest hr hr' hls hls' (List.cons.inj htail).2
            exact ⟨rfl, rfl⟩
          | cons =>
            obtain ⟨-, htail⟩ := ihFirst hf hf' (hclose _) (hotherwise _) hinner
            cases (List.cons.inj htail).1
        | cons =>
          cases second' with
          | nil =>
            obtain ⟨-, htail⟩ := ihFirst hf hf' (hotherwise _) (hclose _) hinner
            cases (List.cons.inj htail).1
          | cons =>
            obtain ⟨rfl, htail⟩ := ihFirst hf hf' (hotherwise _) (hotherwise _) hinner
            obtain ⟨hsecond, htail⟩ := ihSecond hs hs' (hclose _) (hclose _) (List.cons.inj htail).2
            obtain ⟨rfl, rfl⟩ := ihRest hr hr' hls hls' (List.cons.inj htail).2
            rw [hsecond]
            exact ⟨rfl, rfl⟩

/-- **Equal listings show equal outlines.** -/
theorem outline_of_text_eq {m m' : Module} (h : (ofModule m).text = (ofModule m').text) :
    (m.outline rootBlock).shown = (m'.outline rootBlock).shown := by
  have hlines := shown_of_text_eq h
  rw [← linesOf_shown, ← linesOf_shown] at hlines
  have hnil : NoHeader [] := by
    rintro _ ⟨⟩
  exact (outline_of_lines_eq (m.owned_outline rootBlock).shown (m'.owned_outline rootBlock).shown
    hnil hnil (congrArg (· ++ []) hlines)).1

end Listing

/-! ## Blocks of an outline -/

/-- An outline of block `b`: its statements are there, and others in the blocks owned around them.
-/
def Outline.Sited : BlockId → Outline → Prop
  | _, nil => True
  | b, cons s first second rest =>
    s.block = b ∧ first.Sited (s.kind.childBlocks.getD 0 0) ∧
      second.Sited (s.kind.childBlocks.getD 1 0) ∧ rest.Sited b

/-- Outlines that show the same have the same blocks, if their statements own the same blocks. -/
theorem Outline.Sited.block_eq {o o' : Outline} {b : BlockId} (ho : o.Sited b) (ho' : o'.Sited b)
    (h : o.shown = o'.shown)
    (hkids : ∀ s ∈ o.stmts, ∀ s' ∈ o'.stmts, s.id = s'.id →
      s.kind.childBlocks = s'.kind.childBlocks) :
    o.stmts.map (fun s => (s.id, s.block)) = o'.stmts.map fun s => (s.id, s.block) := by
  induction o generalizing o' b with
  | nil =>
    cases o' with
    | nil => rfl
    | cons => cases h
  | cons s first second rest ihFirst ihSecond ihRest =>
    cases o' with
    | nil => cases h
    | cons s' first' second' rest' =>
      obtain ⟨hb, hf, hs, hr⟩ := ho
      obtain ⟨hb', hf', hs', hr'⟩ := ho'
      obtain ⟨hstmt, hfirst, hsecond, hrest⟩ := Outline.cons.inj h
      have hid : s.id = s'.id := (Stmt.mk.inj hstmt).1
      have hown : s.kind.childBlocks = s'.kind.childBlocks :=
        hkids s (by simp [stmts]) s' (by simp [stmts]) hid
      rw [← hown] at hf' hs'
      have ihf := ihFirst hf hf' hfirst fun t ht t' ht' =>
        hkids t (by simp [stmts, ht]) t' (by simp [stmts, ht'])
      have ihs := ihSecond hs hs' hsecond fun t ht t' ht' =>
        hkids t (by simp [stmts, ht]) t' (by simp [stmts, ht'])
      have ihr := ihRest hr hr' hrest fun t ht t' ht' =>
        hkids t (by simp [stmts, ht]) t' (by simp [stmts, ht'])
      simp only [stmts, map_cons, map_append, ihf, ihs, ihr, hid, hb, hb']

namespace Module

variable {m m' : Module}

theorem Inv.sited_outlineOf (h : m.Inv) {b : BlockId}
    (hunder : ∀ c, m.parent? c = some b → (m.outline c).Sited c) {ids : List StmtId}
    (hids : ∀ i ∈ ids, i ∈ m.blockStmts b) : (m.outlineOf m.outline ids).Sited b := by
  induction ids with
  | nil => trivial
  | cons i ids ih =>
    obtain ⟨s, hs, hblock⟩ := h.of_mem_blockStmts (hids i mem_cons_self)
    have hbelow (k : Nat) : (below m.outline s k).Sited (s.kind.childBlocks.getD k 0) := by
      cases hc : s.kind.childBlocks[k]? with
      | none =>
        rw [below, hc]
        trivial
      | some c =>
        rw [below, hc, getD_eq_getElem?_getD, hc]
        exact hunder c (hblock ▸ h.parent?_child hs (mem_of_getElem? hc))
    rw [outlineOf_cons hs]
    exact ⟨hblock, hbelow 0, hbelow 1, ih fun j hj => hids j (mem_cons_of_mem _ hj)⟩

theorem Inv.sited (h : m.Inv) (b : BlockId) : (m.outline b).Sited b := by
  refine h.block_induction (P := fun b => (m.outline b).Sited b) (fun b ih => ?_) b
  rw [h.outline_eq]
  exact h.sited_outlineOf ih fun _ hi => hi

/-! ## Blocks in order -/

/-- The blocks each statement owns, in the order of the statements. -/
def ownedBlocks (m : Module) : List (List BlockId) :=
  m.stmts.toList.map fun s => s.kind.childBlocks

/-- Blocks are numbered in the order in which statements make them, after the root. -/
def Numbered (m : Module) : Prop := rootBlock :: m.ownedBlocks.flatten = List.range m.blocks.size

theorem Numbered.extend (h : m.Numbered) {n c : Nat} {kind : Kind}
    (hkids : kind.childBlocks = List.range' m.blocks.size n) : (m.extend n c kind).Numbered := by
  have howned : (m.extend n c kind).ownedBlocks = m.ownedBlocks ++ [kind.childBlocks] := by
    simp [ownedBlocks, Module.extend, append]
  rw [Numbered, howned, flatten_append, flatten_singleton, ← cons_append, h, hkids,
    extend_blocks_size, range_eq_range', range_eq_range', ← List.range'_append_1,
    Nat.zero_add]

/-- The number of blocks each statement owns tells which they are. -/
theorem Numbered.ownedBlocks_eq (h : m.Numbered) (h' : m'.Numbered)
    (hlengths : m.ownedBlocks.map List.length = m'.ownedBlocks.map List.length) :
    m.ownedBlocks = m'.ownedBlocks := by
  rw [eq_iff_flatten_eq]
  refine ⟨?_, hlengths⟩
  have hflatten : m.ownedBlocks.flatten.length = m'.ownedBlocks.flatten.length := by
    rw [length_flatten, length_flatten, hlengths]
  have hsize := congrArg List.length h
  have hsize' := congrArg List.length h'
  rw [length_cons, length_range] at hsize hsize'
  have hrange : m.blocks.size = m'.blocks.size := by omega
  have hall : rootBlock :: m.ownedBlocks.flatten = rootBlock :: m'.ownedBlocks.flatten := by
    rw [h, h', hrange]
  exact (List.cons.inj hall).2

/-- Every statement is in the outline. -/
theorem Inv.mem_outline_stmts (h : m.Inv) {i : Nat} {s : Stmt} (hs : m.stmts[i]? = some s) :
    s ∈ (m.outline rootBlock).stmts := by
  have hi : i ∈ m.walk := by
    rw [h.walk_perm.mem_iff, mem_range]
    exact (Array.getElem?_eq_some_iff.1 hs).1
  obtain ⟨t, ht, rfl⟩ := mem_map.1 hi
  obtain ⟨j, hj⟩ := found_of_mem_outline ht
  rw [← h.id_eq hj] at hj
  rw [hs] at hj
  cases hj
  exact ht

/-- What agrees along the outlines of two modules agrees for statements with the same number. -/
theorem Inv.eq_of_map_outline_eq (h : m.Inv) (h' : m'.Inv) {α : Type} {f : Stmt → α}
    (hid : ∀ s s', f s = f s' → s.id = s'.id)
    (hmap : (m.outline rootBlock).stmts.map f = (m'.outline rootBlock).stmts.map f) {i : Nat}
    {s s' : Stmt} (hs : m.stmts[i]? = some s) (hs' : m'.stmts[i]? = some s') : f s = f s' := by
  have hmem : f s ∈ (m'.outline rootBlock).stmts.map f :=
    hmap ▸ mem_map_of_mem (h.mem_outline_stmts hs)
  obtain ⟨t, ht, heq⟩ := mem_map.1 hmem
  obtain ⟨j, hj⟩ := found_of_mem_outline ht
  obtain rfl : i = j := by rw [← h.id_eq hs, ← h'.id_eq hj, hid t s heq]
  rw [hs'] at hj
  cases hj
  exact heq.symm

/-! ## Modules of a listing -/

section Shown

variable (h : m.Inv) (h' : m'.Inv)
  (hshown : (m.outline rootBlock).shown = (m'.outline rootBlock).shown)
include h h' hshown

theorem Inv.size_eq_of_shown_eq : m.stmts.size = m'.stmts.size := by
  have hlength := congrArg (fun o => o.stmts.length) hshown
  have hwalk := h.walk_perm.length_eq
  have hwalk' := h'.walk_perm.length_eq
  simp only [Outline.stmts_shown, walk, Outline.ids, length_map, length_range]
    at hlength hwalk hwalk'
  omega

variable {i : Nat} {s s' : Stmt} (hs : m.stmts[i]? = some s) (hs' : m'.stmts[i]? = some s')
include hs hs'

/-- The same listing shows the same statements. -/
theorem Inv.kind_shown_eq : s.kind.shown = s'.kind.shown := by
  have hstmts := congrArg Outline.stmts hshown
  rw [Outline.stmts_shown, Outline.stmts_shown] at hstmts
  have hstmt := h.eq_of_map_outline_eq h' (fun _ _ heq => (Stmt.mk.inj heq).1) hstmts hs hs'
  exact congrArg Stmt.kind hstmt

variable (hn : m.Numbered) (hn' : m'.Numbered)
include hn hn'

/-- Blocks are numbered by their owners. -/
theorem Inv.childBlocks_eq : s.kind.childBlocks = s'.kind.childBlocks := by
  have hsize := h.size_eq_of_shown_eq h' hshown
  have howned : m.ownedBlocks = m'.ownedBlocks := by
    refine hn.ownedBlocks_eq hn' (ext_getElem (by simpa [ownedBlocks] using hsize) ?_)
    intro j hj hj'
    have hkind := h.kind_shown_eq h' hshown
      (Array.getElem?_eq_getElem (by simpa [ownedBlocks] using hj))
      (Array.getElem?_eq_getElem (by simpa [ownedBlocks] using hj'))
    have hlength := congrArg (fun k => k.childBlocks.length) hkind
    simpa [ownedBlocks, Kind.length_childBlocks_shown] using hlength
  have hget := congrArg (fun l => l[i]?) howned
  simpa [ownedBlocks, hs, hs'] using hget

/-- Statements are in the same blocks. -/
theorem Inv.block_eq : s.block = s'.block := by
  have hkids : ∀ t ∈ (m.outline rootBlock).stmts, ∀ t' ∈ (m'.outline rootBlock).stmts,
      t.id = t'.id → t.kind.childBlocks = t'.kind.childBlocks := by
    intro t ht t' ht' hid
    obtain ⟨j, hj⟩ := found_of_mem_outline ht
    obtain ⟨j', hj'⟩ := found_of_mem_outline ht'
    obtain rfl : j = j' := by rw [← h.id_eq hj, ← h'.id_eq hj', hid]
    exact h.childBlocks_eq h' hshown hj hj' hn hn'
  have hblocks := (h.sited rootBlock).block_eq (h'.sited rootBlock) hshown hkids
  have hpair := h.eq_of_map_outline_eq h' (fun _ _ heq => (Prod.mk.inj heq).1) hblocks hs hs'
  exact (Prod.mk.inj hpair).2

end Shown

end Module

namespace Session

variable {actions actions' : List Action} {s s' : Session} {m m' : Module}

/-- Finished modules number their blocks in order. -/
theorem numbered_of_finish (hrun : Session.run {} actions = .ok s)
    (hfinish : s.builder.finish = .ok m) : m.Numbered := by
  obtain rfl := module_of_finish hfinish
  refine run_induction (P := fun b => b.module.Numbered) (fun b b' hn hmove => ?_) hrun rfl
  cases hmove with
  | append n kind happ => exact hn.extend happ.children
  | enter => exact hn
  | leave => exact hn

/-- **Listings are unambiguous.**  Finished modules with the same listing have the same statements,
in the same blocks and owning the same blocks, except that a listing shows of fields and textures
only their numbers and of NaNs only that they are. -/
theorem listing_unambiguous (hrun : Session.run {} actions = .ok s)
    (hfinish : s.builder.finish = .ok m) (hrun' : Session.run {} actions' = .ok s')
    (hfinish' : s'.builder.finish = .ok m')
    (htext : (Listing.ofModule m).text = (Listing.ofModule m').text) :
    m.stmts.size = m'.stmts.size ∧ ∀ (i : StmtId) (t t' : Stmt), m.stmts[i]? = some t →
      m'.stmts[i]? = some t' → t.block = t'.block ∧
        t.kind.childBlocks = t'.kind.childBlocks ∧ t.kind.erased = t'.kind.erased ∧
        t.kind.operands = t'.kind.operands := by
  obtain ⟨h, -⟩ := inv_of_finish hrun hfinish
  obtain ⟨h', -⟩ := inv_of_finish hrun' hfinish'
  have hn := numbered_of_finish hrun hfinish
  have hn' := numbered_of_finish hrun' hfinish'
  have hshown := Listing.outline_of_text_eq htext
  refine ⟨h.size_eq_of_shown_eq h' hshown, fun i t t' ht ht' => ?_⟩
  have hkids := h.childBlocks_eq h' hshown ht ht' hn hn'
  have herased : t.kind.erased = t'.kind.erased := by
    rw [Kind.erased_eq, h.kind_shown_eq h' hshown ht ht', hkids, ← Kind.erased_eq]
  refine ⟨h.block_eq h' hshown ht ht' hn hn', hkids, herased, ?_⟩
  rw [← Kind.operands_erased, herased, Kind.operands_erased]

/-- A constant, and a serial loop over a field with a branch that has only its second block. -/
def overField (bits : UInt32) (field : Field) : List Action :=
  [.create (.const (.f32 bits)), .create (.rangeFor (.field field) true), .openGuard .rangeFor 1,
    .create (.argLoad .i32 0), .create (.branch 2), .openGuard (.branch false) 3,
    .create (.unary .neg 0), .closeGuard 1, .closeGuard 0]

/-- Two NaNs and two fields have one listing. -/
theorem listing_unambiguous_overField : ∃ s s' m m' t t',
    Session.run {} (overField 0x7fc00000 ⟨0, [4], .f32, 1, 0, 0, true⟩) = .ok s ∧
      s.builder.finish = .ok m ∧
      Session.run {} (overField 0xffc00001 ⟨0, [2, 3], .i32, 2, 1, 8, false⟩) = .ok s' ∧
      s'.builder.finish = .ok m' ∧ (Listing.ofModule m).text = (Listing.ofModule m').text ∧
      m.stmts[1]? = some t ∧ m'.stmts[1]? = some t' ∧ t.kind ≠ t'.kind ∧
      t.kind.erased = t'.kind.erased ∧ t.kind.childBlocks = t'.kind.childBlocks := by
  have hmodules : ∃ s s' m m' t t',
      (Session.run {} (overField 0x7fc00000 ⟨0, [4], .f32, 1, 0, 0, true⟩) = .ok s ∧
        s.builder.finish = .ok m ∧
        Session.run {} (overField 0xffc00001 ⟨0, [2, 3], .i32, 2, 1, 8, false⟩) = .ok s' ∧
        s'.builder.finish = .ok m') ∧ (Listing.ofModule m).text = (Listing.ofModule m').text ∧
      m.stmts[1]? = some t ∧ m'.stmts[1]? = some t' ∧ t.kind ≠ t'.kind :=
    ⟨_, _, _, _, _, _, ⟨rfl, rfl, rfl, rfl⟩, by decide, rfl, rfl, by decide⟩
  obtain ⟨s, s', m, m', t, t', ⟨hrun, hfinish, hrun', hfinish'⟩, htext, ht, ht', hne⟩ := hmodules
  obtain ⟨-, hstmts⟩ := listing_unambiguous hrun hfinish hrun' hfinish' htext
  obtain ⟨-, hkids, herased, -⟩ := hstmts 1 t t' ht ht'
  exact ⟨s, s', m, m', t, t', hrun, hfinish, hrun', hfinish', htext, ht, ht', hne, herased, hkids⟩

end Session

end WgslKernel
