import WgslKernel.Proofs.Scoping.Drafts

/-!
# Blocks of the text

A line that ends in an opening brace begins a block, and a closing brace ends the innermost one.
Code ends what it begins, so what comes behind it is in the same blocks as what comes ahead.
-/

namespace WgslKernel

open List

/-! ## Rows -/

/-- A line of text at a nesting depth, and the statement that it stems from. -/
structure Row where
  depth : Nat
  content : String
  origin : StmtId

namespace Row

variable {r : Row} {around rows rows' body rest : List Row}

/-- A row as a line of text. -/
def text (r : Row) : String := Code.lineAt r.depth r.content

/-- A block begins behind a brace at the end of a row. -/
def opens (r : Row) : Bool := r.content.toList.getLast? = some '\x7b'

/-- A block ends at a brace, which may be ahead of another block. -/
def closes (r : Row) : Bool := r.content = "\x7d" ∨ r.content = "\x7d else \x7b"

/-- The block that begins behind the row is the body of a loop. -/
def isLoop (r : Row) : Bool :=
  r.opens && ["loop".toList, "for ".toList].contains (r.content.toList.take 4)

/-- The rows whose blocks are open behind a row, given those ahead of it, the innermost first. -/
def pass (around : List Row) (r : Row) : List Row :=
  let outer := if r.closes then around.tail else around
  if r.opens then r :: outer else outer

/-- Each row along with the rows whose blocks are open around it. -/
def nested (around : List Row) : List Row → List (List Row × Row)
  | [] => []
  | r :: rows => (around, r) :: nested (pass around r) rows

theorem nested_append (around rows rows' : List Row) :
    nested around (rows ++ rows') =
      nested around rows ++ nested (rows.foldl pass around) rows' := by
  induction rows generalizing around with
  | nil => rfl
  | cons r rows ih => simp [nested, ih]

theorem exists_nested (around : List Row) (h : r ∈ rows) :
    ∃ outer, (outer, r) ∈ nested around rows := by
  induction rows generalizing around with
  | nil => cases h
  | cons q rows ih =>
    rcases mem_cons.1 h with rfl | h
    · exact ⟨around, mem_cons_self⟩
    · obtain ⟨outer, houter⟩ := ih (pass around q) h
      exact ⟨outer, mem_cons_of_mem _ houter⟩

theorem mem_of_nested {outer : List Row} (h : (outer, r) ∈ nested around rows) : r ∈ rows := by
  induction rows generalizing around with
  | nil => cases h
  | cons q rows ih =>
    rcases mem_cons.1 h with h | h
    · cases h
      exact mem_cons_self
    · exact mem_cons_of_mem _ (ih h)

/-! ## Blocks -/

/-- What opens a block of its own. -/
structure IsHeader (content : String) : Prop where
  last : content.toList.getLast? = some '\x7b'
  first : content.toList.head? ≠ some '\x7d'

theorem getLast?_append {b : String} {c : Char} (a : String) (h : b.toList.getLast? = some c) :
    (a ++ b).toList.getLast? = some c := by
  simp [h]

theorem pass_header {content : String} (h : IsHeader content) (depth : Nat) (origin : StmtId) :
    pass around ⟨depth, content, origin⟩ = ⟨depth, content, origin⟩ :: around := by
  have hcloses : ¬(content = "\x7d" ∨ content = "\x7d else \x7b") := by
    rintro (rfl | rfl) <;> exact h.first (by decide)
  simp [pass, opens, closes, h.last, hcloses]

theorem pass_line (l : Line) (depth : Nat) (origin : StmtId) :
    pass around ⟨depth, l.text, origin⟩ = around := by
  have hlast : l.text.toList.getLast? = some ';' := by
    cases l with
    | letBind name type value => cases type <;> exact getLast?_append _ (by decide)
    | declare name type value => cases value <;> exact getLast?_append _ (by decide)
    | assign | perform => exact getLast?_append _ (by decide)
    | _ => decide
  have hcloses : ¬(l.text = "\x7d" ∨ l.text = "\x7d else \x7b") := by
    rintro (h | h) <;> rw [h] at hlast <;> exact absurd hlast (by decide)
  simp [pass, opens, closes, hlast, hcloses]

theorem pass_close (depth : Nat) (origin : StmtId) :
    pass (r :: around) ⟨depth, "\x7d", origin⟩ = around := by
  simp +decide [pass, opens, closes]

theorem pass_else (depth : Nat) (origin : StmtId) :
    pass (r :: around) ⟨depth, "\x7d else \x7b", origin⟩ =
      ⟨depth, "\x7d else \x7b", origin⟩ :: around := by
  simp +decide [pass, opens, closes]

theorem isHeader_if (c : Expr) : IsHeader s!"if ({c.text}) \x7b" where
  last := getLast?_append _ (by decide)
  first := by simp [toString]

theorem isHeader_loop : IsHeader "loop \x7b" := ⟨by decide, by decide⟩

theorem toList_header (h : LoopHeader) :
    ∃ rest, (h.text ++ " \x7b").toList = 'f' :: 'o' :: 'r' :: ' ' :: rest := by
  have hfor : "for (var ".toList = ['f', 'o', 'r', ' ', '(', 'v', 'a', 'r', ' '] := by decide
  unfold LoopHeader.text
  simp only [toString]
  simp only [String.toList_append, List.append_assoc, hfor, cons_append]
  exact ⟨_, rfl⟩

theorem isHeader_count (h : LoopHeader) : IsHeader (h.text ++ " \x7b") where
  last := getLast?_append _ (by decide)
  first := by
    obtain ⟨rest, hrest⟩ := toList_header h
    simp [hrest]

theorem isLoop_if (c : Expr) (depth : Nat) (origin : StmtId) :
    isLoop ⟨depth, s!"if ({c.text}) \x7b", origin⟩ = false := by
  simp [isLoop, toString]

theorem isLoop_else (depth : Nat) (origin : StmtId) :
    isLoop ⟨depth, "\x7d else \x7b", origin⟩ = false := by
  simp [isLoop]

theorem isLoop_count (h : LoopHeader) (depth : Nat) (origin : StmtId) :
    isLoop ⟨depth, h.text ++ " \x7b", origin⟩ = true := by
  have hopens : opens ⟨depth, h.text ++ " \x7b", origin⟩ = true := by
    simp only [opens, (isHeader_count h).last, decide_true]
  obtain ⟨rest, hrest⟩ := toList_header h
  simp [isLoop, hopens, hrest]

theorem isLoop_loop (depth : Nat) (origin : StmtId) :
    isLoop ⟨depth, "loop \x7b", origin⟩ = true := by
  simp [isLoop, opens]

/-- A block behind a row that opens it, and what comes behind the block. -/
def block (depth : Nat) (origin : StmtId) (header : String) (body rest : List Row) : List Row :=
  ⟨depth, header, origin⟩ :: (body ++ ⟨depth, "\x7d", origin⟩ :: rest)

/-- Rows that end all blocks that they begin, and no others. -/
def Balanced (rows : List Row) : Prop := ∀ around, rows.foldl pass around = around

/-- Balanced rows stay balanced together. -/
theorem Balanced.append (h : Balanced rows) (h' : Balanced rows') : Balanced (rows ++ rows') :=
  fun around => by rw [foldl_append, h, h']

variable {depth : Nat} {origin : StmtId} {header : String}

theorem foldl_block
    (hheader : pass around ⟨depth, header, origin⟩ = ⟨depth, header, origin⟩ :: rows)
    (hbody : Balanced body) (hrest : Balanced rest) :
    (block depth origin header body rest).foldl pass around = rows := by
  simp only [block, foldl_cons, foldl_append, hheader, hbody _, pass_close, hrest _]

/-- A row of something else than the block itself is within the block, or behind it. -/
theorem mem_nested_block {outer : List Row}
    (hheader : pass around ⟨depth, header, origin⟩ = ⟨depth, header, origin⟩ :: rows)
    (hbody : Balanced body) (h : (outer, r) ∈ nested around (block depth origin header body rest))
    (horigin : r.origin ≠ origin) :
    (outer, r) ∈ nested (⟨depth, header, origin⟩ :: rows) body ∨ (outer, r) ∈ nested rows rest := by
  simp only [block, nested, nested_append, hheader, hbody _, pass_close, mem_cons, mem_append] at h
  rcases h with h | h | h | h
  · cases h
    exact absurd rfl horigin
  · exact .inl h
  · cases h
    exact absurd rfl horigin
  · exact .inr h

end Row

namespace Code

/-- The rows of code that stems from a statement. -/
def rows (origin : StmtId) (depth : Nat) : Code → List Row
  | done => []
  | line l rest => ⟨depth, l.text, origin⟩ :: rest.rows origin depth
  | branch c yes rest =>
    Row.block depth origin s!"if ({c.text}) \x7b" (yes.rows origin (depth + 1))
      (rest.rows origin depth)
  | branchElse c yes no rest =>
    ⟨depth, s!"if ({c.text}) \x7b", origin⟩ :: (yes.rows origin (depth + 1) ++
      Row.block depth origin "\x7d else \x7b" (no.rows origin (depth + 1)) (rest.rows origin depth))
  | loop body rest =>
    Row.block depth origin "loop \x7b" (body.rows origin (depth + 1)) (rest.rows origin depth)
  | countLoop h body rest =>
    Row.block depth origin (h.text ++ " \x7b") (body.rows origin (depth + 1))
      (rest.rows origin depth)

variable {origin : StmtId} {depth : Nat}

theorem origin_of_mem_rows {c : Code} {r : Row} (h : r ∈ c.rows origin depth) :
    r.origin = origin := by
  induction c generalizing depth with
  | done => cases h
  | _ =>
    simp only [rows, Row.block, mem_cons, mem_append] at h
    grind

/-- Code ends what it begins. -/
theorem balanced_rows (c : Code) : Row.Balanced (c.rows origin depth) := by
  induction c generalizing depth with
  | done => exact fun _ => rfl
  | line l rest ih =>
    intro around
    rw [rows, foldl_cons, Row.pass_line, ih]
  | branch c yes rest ihYes ihRest =>
    exact fun _ => Row.foldl_block (Row.pass_header (Row.isHeader_if c) _ _) ihYes ihRest
  | branchElse c yes no rest ihYes ihNo ihRest =>
    intro around
    rw [rows, foldl_cons, foldl_append, Row.pass_header (Row.isHeader_if c), ihYes _]
    exact Row.foldl_block (Row.pass_else _ _) ihNo ihRest
  | loop body rest ihBody ihRest =>
    exact fun _ => Row.foldl_block (Row.pass_header Row.isHeader_loop _ _) ihBody ihRest
  | countLoop h body rest ihBody ihRest =>
    exact fun _ => Row.foldl_block (Row.pass_header (Row.isHeader_count h) _ _) ihBody ihRest

theorem text_append (c d : Code) (depth : Nat) :
    (c ++ d).text depth = c.text depth ++ d.text depth := by
  induction c <;> simp_all [text, String.append_assoc]

/-- **Code is the text of its rows.** -/
theorem join_rows (c : Code) : String.join ((c.rows origin depth).map Row.text) = c.text depth := by
  induction c generalizing depth <;>
    simp_all [rows, text, Row.block, Row.text, String.join_cons, String.append_assoc]

end Code

end WgslKernel
