import WgslKernel.Diagnostic.Basic

/-!
# Reports

A diagnostic drawn into its source for a colour terminal: the line it is about, the marked part
underlined, and the message at the end of an arrow.
-/

namespace WgslKernel.Report

/-! ## Colours -/

/-- Text in one of the 256 palette colours. -/
def palette (colour : Nat) (text : String) : String := s!"\x1b[38;5;{colour}m{text}\x1b[0m"

/-- Text in the colour of errors. -/
def red (text : String) : String := s!"\x1b[31m{text}\x1b[0m"

/-- Lines and corners of the frame. -/
def frame (text : String) : String := palette 246 text

/-- Blanks, for alignment. -/
def spaces (n : Nat) : String := String.ofList (List.replicate n ' ')

/-- A text again and again. -/
def repeated (n : Nat) (text : String) : String := String.join (List.replicate n text)

/-! ## The marked line -/

/-- A line of a source with the part that is marked.  Positions in it count characters. -/
structure Place where
  /-- One-based. -/
  lineNumber : Nat
  /-- Position of the first marked character. -/
  column : Nat
  /-- Number of marked characters. -/
  length : Nat
  /-- The line without its end and the blanks before it. -/
  line : List Char
  deriving Repr

/-- The line a position lies in: its number, its first position, and its characters.  The end of the
text lies in the last line; past it there is none. -/
def locate? (pos : Nat) : Nat → Nat → List (List Char) → Option (Nat × Nat × List Char)
  | _, _, [] => none
  | number, start, [line] =>
    if pos ≤ start + line.length then some (number, start, line) else none
  | number, start, line :: lines =>
    if pos < start + line.length then some (number, start, line)
    else locate? pos (number + 1) (start + line.length) lines

/-- The place of a range of a source of one-byte characters. -/
def place? (span : Span) (source : String) : Option Place :=
  (locate? span.start 1 0 (Text.rawLines source.toList)).map fun (number, start, line) =>
    ⟨number, span.start - start, span.stop - span.start, Text.trimRight line⟩

/-- Columns between the stops that tabs reach to. -/
def tabWidth : Nat := 4

/-- Columns of the character at a position.  A tab goes on to the next multiple of the tab width. -/
def columnsOf (position : Nat) (c : Char) : Nat :=
  if c = '\t' then (position / tabWidth + 1) * tabWidth - position else 1

namespace Place

/-- Columns at a position of the line; past its end, every position takes one. -/
def columnsAt (p : Place) (position : Nat) : Nat :=
  match p.line[position]? with
  | some c => columnsOf position c
  | none => 1

/-- The position is underlined. -/
def isMarked (p : Place) (position : Nat) : Bool :=
  p.column ≤ position && position < p.column + p.length

/-- The source line, every column coloured by itself.  Blanks of all kinds are shown as spaces. -/
def lineText (p : Place) : String :=
  String.join <| p.line.zipIdx.map fun (c, i) =>
    let shown := if Text.isBlank c then " " else c.toString
    repeated (columnsOf i c) (if p.isMarked i then red shown else palette 249 shown)

/-- Position the arrow starts from. -/
def middle (p : Place) : Nat := p.column + p.length / 2

/-- What a row under the source line shows at a position: its first column and the others. -/
structure Cell where
  head : String
  tail : String

/-- The same text in all columns. -/
def Cell.fill (text : String) : Cell := ⟨text, text⟩

/-- A row under the source line, up to two positions after the mark. -/
def row (p : Place) (cell : Nat → Cell) : String :=
  String.join <| (List.range (p.column + p.length + 2)).map fun i =>
    (cell i).head ++ repeated (p.columnsAt i - 1) (cell i).tail

/-- The line under the marked characters, if there are any, and the beginning of the arrow. -/
def underline (p : Place) : String :=
  p.row fun i =>
    if i = p.middle then
      if p.length = 0 then ⟨red "│", red " "⟩ else ⟨red "┬", red "─"⟩
    else if p.isMarked i then .fill (red "─")
    else .fill " "

/-- The arrow from the underline to the message. -/
def arrow (p : Place) : String :=
  p.row fun i =>
    if i = p.middle then ⟨red "╰", red "─"⟩
    else if p.middle < i then .fill (red "─")
    else .fill " "

end Place

/-! ## Reports -/

/-- The margin of a line that is not a source line, for line numbers of the given width. -/
def gutter (width : Nat) : String := " " ++ palette 240 (spaces (width + 1) ++ "│") ++ " "

/-- A remark under the source line, set off by an empty line. -/
def remark (width : Nat) (label text : String) : List String :=
  [gutter width, gutter width ++ palette 115 label ++ ": " ++ text]

/-- The title of a report. -/
def title (d : Diagnostic) : String := red "Error:" ++ " " ++ d.message

/-- The lines that show a place, with the remarks on it. -/
def drawing (d : Diagnostic) (filename : String) (p : Place) : List String :=
  let number := toString p.lineNumber
  let width := number.length
  let margin := gutter width
  [spaces (width + 2) ++ frame "╭" ++ frame "─" ++ frame "[" ++
      s!"{filename}:{number}:{p.column + 1}" ++ frame "]",
    spaces (width + 2) ++ frame "│",
    " " ++ frame (number ++ " │") ++ " " ++ p.lineText,
    margin ++ p.underline,
    margin ++ p.arrow ++ " " ++ d.message] ++
    (match d.help with | some help => remark width "Help" help | none => []) ++
    -- Only the last note is shown.
    (match d.notes.getLast? with | some note => remark width "Note" note | none => []) ++
    [frame (repeated (width + 2) "─" ++ "╯")]

/-- The lines of a report.  Where the source has no place for the range only the title is left. -/
def lines (d : Diagnostic) (filename source : String) : List String :=
  title d :: ((place? d.span source).map (drawing d filename)).getD []

/-- A diagnostic drawn into the source it is about. -/
def render (d : Diagnostic) (filename source : String) : String :=
  String.join ((lines d filename source).map (· ++ "\n"))

end WgslKernel.Report
