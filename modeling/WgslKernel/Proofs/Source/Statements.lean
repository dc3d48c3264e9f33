import WgslKernel.Proofs.Buffers.Accesses
import WgslKernel.Proofs.Source.Expressions

/-!
# Statements read back

An expression cannot disturb what comes behind it: a semicolon or a bracket settles every candidate
for a template list that it leaves.  Nothing has to be known about the declarations of a shader,
since the brace that opens the entry point ends whatever they leave open.
-/

namespace WgslKernel

open List

open Source

namespace Source

variable {ls ls' : List Lexeme} {ts us : List Token}

/-- Lexemes that are read as `ts`, ahead of a statement and behind it. -/
structure Spells (ls : List Lexeme) (ts : List Token) : Prop where
  neat : Neat ls
  clears : Clears ls ts

theorem Spells.part {l' : Lexeme} (h : Spells ls ts) (h' : Spells (l' :: ls') us)
    (hl' : l'.parts = true) : Spells (ls ++ l' :: ls') (ts ++ us) :=
  ⟨h.neat.part h'.neat hl', h.clears.append h'.clears⟩

/-- What opens a block. -/
def opened (ls : List Lexeme) : List Lexeme := ls ++ [.blank ' ', .symbol ['\x7b']]

theorem Spells.opened (h : Spells ls ts) : Spells (opened ls) (ts ++ [.symbol ['\x7b']]) := by
  refine h.part ⟨(neat_singleton rfl).blank rfl, ?_⟩ rfl
  exact (writes_blank (c := ' ')).emits.clears.append (clears_symbol (by decide) (by decide))

/-- A line of text at a nesting depth. -/
def row (depth : Nat) (ls : List Lexeme) : List Lexeme :=
  List.replicate (4 * depth) (.blank ' ') ++ (ls ++ [.blank '\n'])

theorem toList_lineAt {text : String} (h : text.toList = ls.flatMap Lexeme.chars) (depth : Nat) :
    (Code.lineAt depth text).toList = (row depth ls).flatMap Lexeme.chars := by
  have hblanks (n : Nat) :
      (List.replicate n (Lexeme.blank ' ')).flatMap Lexeme.chars = List.replicate n ' ' := by
    induction n with
    | zero => rfl
    | succ n ih => rw [replicate_succ, flatMap_cons, ih, replicate_succ]; rfl
  simp [Code.lineAt, row, h, hblanks, Lexeme.chars]

/-- A line by itself, and what comes behind it. -/
theorem Spells.row_append (h : Spells ls ts) (depth : Nat) (h' : Spells ls' us) :
    Spells (row depth ls ++ ls') (ts ++ us) := by
  have hend : Neat (ls ++ [.blank '\n']) := h.neat.part (neat_singleton rfl) rfl
  have hrow (n : Nat) : Neat (List.replicate n (.blank ' ') ++ (ls ++ [.blank '\n'])) ∧
      Clears (List.replicate n (.blank ' ') ++ (ls ++ [.blank '\n'])) ts := by
    induction n with
    | zero =>
      have hclears := h.clears.append (writes_blank (c := '\n')).emits.clears
      rw [append_nil] at hclears
      exact ⟨hend, hclears⟩
    | succ n ih =>
      exact ⟨ih.1.blank rfl, (writes_blank (c := ' ')).emits.clears.append ih.2⟩
  refine ⟨(hrow (4 * depth)).1.append h'.neat fun l hl l' _ => ?_,
    (hrow (4 * depth)).2.append h'.clears⟩
  rw [Option.mem_def, List.getLast?_append_of_ne_nil _ (by simp), List.getLast?_concat] at hl
  cases hl
  exact fun _ _ => rfl

end Source

/-! ## Lines -/

namespace Line

/-- The expressions of a line, with what the grammar asks for in their place. -/
def slots : Line → List (Category × Expr)
  | letBind _ _ value => [(.expression, value)]
  | declare _ _ value => value.toList.map (.expression, ·)
  | assign target value => [(.singular, target), (.expression, value)]
  | perform e => [(.expression, e)]
  | exitLoop | nextIteration | discard => []

/-- Its expressions can stand as they are. -/
def Fits (l : Line) : Prop := ∀ p ∈ l.slots, p.2.fits p.1 = true

section Fits

attribute [local simp] Fits slots

variable {name : Ident} {type : Option ShaderType} {shape : ShaderType} {target value : Expr}

@[simp] theorem fits_letBind :
    (letBind name type value).Fits ↔ value.fits .expression = true := by simp

@[simp] theorem fits_declare :
    (declare name shape (some value)).Fits ↔ value.fits .expression = true := by simp

@[simp] theorem fits_assign :
    (assign target value).Fits ↔ target.fits .singular = true ∧ value.fits .expression = true := by
  simp

@[simp] theorem fits_perform : (perform value).Fits ↔ value.fits .expression = true := by
  simp

end Fits

/-- A name that is declared. -/
def headLexemes (keyword : String) (name : Ident) (type : Option ShaderType) : List Lexeme :=
  [.word keyword.toList, .blank ' ', .word name.text.toList] ++
    match type with
    | some t => .symbol [':'] :: .blank ' ' :: t.lexemes
    | none => []

/-- What a declaration begins with. -/
def headTokens (keyword : String) (name : Ident) (type : Option ShaderType) : List Token :=
  [.word keyword.toList, .word name.text.toList] ++
    match type with
    | some t => .symbol [':'] :: t.tokens
    | none => []

/-- The value that something is given, up to the mark that ends it. -/
def valueLexemes (value : Expr) (stop : Char) : List Lexeme :=
  .blank ' ' :: .symbol ['='] :: .blank ' ' :: (value.lexemes ++ [.symbol [stop]])

/-- A value and what ends it. -/
def valueTokens (value : Expr) (stop : Char) : List Token :=
  .symbol ['='] :: (value.tokens ++ [.symbol [stop]])

/-- A line as it is written. -/
def lexemes : Line → List Lexeme
  | letBind name type value => headLexemes "let" name type ++ valueLexemes value ';'
  | declare name type (some value) => headLexemes "var" name (some type) ++ valueLexemes value ';'
  | declare name type none => headLexemes "var" name (some type) ++ [.symbol [';']]
  | assign target value => target.lexemes ++ valueLexemes value ';'
  | perform e => e.lexemes ++ [.symbol [';']]
  | exitLoop => [.word "break".toList, .symbol [';']]
  | nextIteration => [.word "continue".toList, .symbol [';']]
  | discard => [.word "discard".toList, .symbol [';']]

/-- The tokens that are meant. -/
def tokens : Line → List Token
  | letBind name type value => headTokens "let" name type ++ valueTokens value ';'
  | declare name type (some value) => headTokens "var" name (some type) ++ valueTokens value ';'
  | declare name type none => headTokens "var" name (some type) ++ [.symbol [';']]
  | assign target value => target.tokens ++ valueTokens value ';'
  | perform e => e.tokens ++ [.symbol [';']]
  | exitLoop => [.word "break".toList, .symbol [';']]
  | nextIteration => [.word "continue".toList, .symbol [';']]
  | discard => [.word "discard".toList, .symbol [';']]

/-- The text of a line is its lexemes. -/
theorem toList_text {l : Line} (h : l.Fits) : l.text.toList = l.lexemes.flatMap Lexeme.chars := by
  cases l with
  | letBind name type value =>
    have hvalue := value.toList_text _ (fits_letBind.1 h)
    cases type with
    | none => simp [text, lexemes, headLexemes, valueLexemes, Lexeme.chars, toString, hvalue]
    | some type =>
      simp [text, lexemes, headLexemes, valueLexemes, Lexeme.chars, toString, hvalue,
        type.toList_name]
  | declare name type value =>
    cases value with
    | none => simp [text, lexemes, headLexemes, Lexeme.chars, toString, type.toList_name]
    | some value =>
      have hvalue := value.toList_text _ (fits_declare.1 h)
      simp [text, lexemes, headLexemes, valueLexemes, Lexeme.chars, toString, hvalue,
        type.toList_name]
  | assign target value =>
    have htarget := target.toList_text _ (fits_assign.1 h).1
    have hvalue := value.toList_text _ (fits_assign.1 h).2
    simp [text, lexemes, valueLexemes, Lexeme.chars, toString, htarget, hvalue]
  | perform e =>
    have he := e.toList_text _ (fits_perform.1 h)
    simp [text, lexemes, Lexeme.chars, toString, he]
  | exitLoop | nextIteration | discard => rfl

theorem head_spells {keyword : String} (hkeyword : (Lexeme.word keyword.toList).isProper = true)
    (name : Ident) (type : Option ShaderType) :
    Spells (headLexemes keyword name type) (headTokens keyword name type) := by
  have hwords : Clears [.word keyword.toList, .blank ' ', .word name.text.toList]
      [.word keyword.toList, .word name.text.toList] :=
    (writes_word.append (writes_blank.append writes_word)).emits.clears
  cases type with
  | none => exact ⟨((neat_singleton name.isProper_text).blank rfl).word hkeyword rfl, hwords⟩
  | some t =>
    have hcolon : Neat (.symbol [':'] :: .blank ' ' :: t.lexemes) :=
      (t.neat.blank rfl).symbol rfl fun _ => rfl
    have htype := (writes_blank (c := ' ')).append t.writes
    exact ⟨((hcolon.word name.isProper_text rfl).blank rfl).word hkeyword rfl,
      hwords.append ((clears_symbol (by decide) (by decide)).append htype.emits.clears)⟩

/-- An expression up to the semicolon. -/
theorem expr_spells {e : Expr} (h : e.fits .expression = true) :
    Spells (e.lexemes ++ [.symbol [';']]) (e.tokens ++ [.symbol [';']]) :=
  ⟨(e.neat _ h).part (neat_singleton rfl) rfl, (e.reads _ h).2.clears (fun _ => rfl) (by decide)⟩

theorem value_spells {value : Expr} (h : value.fits .expression = true) {stop : Char}
    (hstop : stop = ';' ∨ stop = ')' ∧ value.isQuiet = true) :
    Spells (valueLexemes value stop) (valueTokens value stop) := by
  have hequals : Clears [.blank ' ', .symbol ['='], .blank ' '] [.symbol ['=']] :=
    writes_blank.emits.clears.append
      ((clears_symbol (by decide) (by decide)).append writes_blank.emits.clears)
  have hvalue : Spells (value.lexemes ++ [.symbol [stop]]) (value.tokens ++ [.symbol [stop]]) := by
    rcases hstop with rfl | ⟨rfl, hquiet⟩
    · exact expr_spells h
    · exact ⟨(value.neat _ h).part (neat_singleton rfl) rfl,
        ((value.reads _ h).1 hquiet).clears.append (clears_symbol (by decide) (by decide))⟩
  exact ⟨hvalue.neat.spaced rfl, hequals.append hvalue.clears⟩

/-- **A line is read as the tokens that are meant.** -/
theorem spells {l : Line} (h : l.Fits) : Spells l.lexemes l.tokens := by
  have hword {w : List Char} (hw : (Lexeme.word w).isProper = true) :
      Spells [.word w, .symbol [';']] [.word w, .symbol [';']] :=
    ⟨(neat_singleton rfl).word hw rfl,
      writes_word.emits.clears.append (clears_symbol (by decide) (by decide))⟩
  cases l with
  | letBind name type value =>
    exact (head_spells (by decide) name type).part
      (value_spells (fits_letBind.1 h) (.inl rfl)) rfl
  | declare name type value =>
    cases value with
    | none =>
      exact (head_spells (by decide) name (some type)).part
        ⟨neat_singleton rfl, clears_symbol (by decide) (by decide)⟩ rfl
    | some value =>
      exact (head_spells (by decide) name (some type)).part
        (value_spells (fits_declare.1 h) (.inl rfl)) rfl
  | assign target value =>
    obtain ⟨htarget, hvalue⟩ := fits_assign.1 h
    have hreads := (target.reads _ htarget).1 (Expr.isQuiet_of_fits htarget (by decide))
    exact Spells.part ⟨target.neat _ htarget, hreads.clears⟩
      (value_spells hvalue (.inl rfl)) rfl
  | perform e => exact expr_spells (fits_perform.1 h)
  | exitLoop | nextIteration | discard => exact hword (by decide)

theorem isInfix_value (value : Expr) (stop : Char) : value.tokens <:+: valueTokens value stop :=
  ⟨[.symbol ['=']], [.symbol [stop]], rfl⟩

/-- The expressions of a line stand among its tokens. -/
theorem isInfix_of_slot {l : Line} {c : Category} {e : Expr} (h : (c, e) ∈ l.slots) :
    e.tokens <:+: l.tokens := by
  cases l with
  | letBind name type value =>
    cases mem_singleton.1 h
    exact (isInfix_value _ ';').trans (suffix_append _ _).isInfix
  | declare name type value =>
    cases value with
    | none => cases h
    | some value =>
      cases mem_singleton.1 h
      exact (isInfix_value _ ';').trans (suffix_append _ _).isInfix
  | assign target value =>
    simp only [slots, mem_cons, Prod.mk.injEq, not_mem_nil, or_false] at h
    rcases h with ⟨-, rfl⟩ | ⟨-, rfl⟩
    · exact (prefix_append _ _).isInfix
    · exact (isInfix_value _ ';').trans (suffix_append _ _).isInfix
  | perform e =>
    cases mem_singleton.1 h
    exact (prefix_append _ _).isInfix
  | exitLoop | nextIteration | discard => cases h

end Line

/-! ## Loop headers -/

namespace LoopHeader

variable {h : LoopHeader}

/-- The value of the counter in the next turn. -/
def next (h : LoopHeader) : Expr := .binary .add (.ident h.counter) h.step

/-- The head of a loop as it is written. -/
def lexemes (h : LoopHeader) : List Lexeme :=
  .word "for".toList :: .blank ' ' :: .symbol ['('] ::
    (h.first.lexemes ++ .blank ' ' :: ((Line.perform h.test).lexemes ++
      .blank ' ' :: .word h.counter.text.toList :: Line.valueLexemes h.next ')'))

/-- The head of a loop as tokens. -/
def tokens (h : LoopHeader) : List Token :=
  .word "for".toList :: .symbol ['('] ::
    (h.first.tokens ++ ((Line.perform h.test).tokens ++
      .word h.counter.text.toList :: Line.valueTokens h.next ')'))

theorem next_fits (hupdate : h.update.Fits) : h.next.fits .expression = true := by
  rw [update, Line.fits_assign] at hupdate
  exact hupdate.2

theorem toList_text (hfirst : h.first.Fits) (htest : (Line.perform h.test).Fits)
    (hupdate : h.update.Fits) : h.text.toList = h.lexemes.flatMap Lexeme.chars := by
  have htest' := Line.fits_perform.1 htest
  have hnext := next_fits hupdate
  simp only [test, next, Expr.fits, Bool.and_eq_true] at htest' hnext
  have hstart := h.start.toList_text _ (Line.fits_declare.1 hfirst)
  have hstop := h.stop.toList_text _ htest'.2.1
  have hstep := h.step.toList_text _ hnext.2.1
  unfold text
  simp [lexemes, first, test, next, Line.lexemes, Line.headLexemes, Line.valueLexemes,
    Expr.lexemes, ShaderType.lexemes, Scalar.name, Operator.chars, Lexeme.chars, toString, hstart,
    hstop, hstep]

/-- The head of a loop is read as its tokens. -/
theorem spells (hfirst : h.first.Fits) (htest : (Line.perform h.test).Fits)
    (hupdate : h.update.Fits) : Spells h.lexemes h.tokens := by
  have hnext : Spells (Line.valueLexemes h.next ')') (Line.valueTokens h.next ')') :=
    Line.value_spells (next_fits hupdate) (.inr ⟨rfl, rfl⟩)
  have hword : Clears [.blank ' ', .word h.counter.text.toList] [.word h.counter.text.toList] :=
    (writes_blank.append writes_word).emits.clears
  have hthird : Spells (.blank ' ' :: .word h.counter.text.toList :: Line.valueLexemes h.next ')')
      (.word h.counter.text.toList :: Line.valueTokens h.next ')') :=
    ⟨(hnext.neat.word h.counter.isProper_text rfl).blank rfl, hword.append hnext.clears⟩
  have hsecond := (Line.spells htest).part hthird rfl
  have hblank : Clears [.blank ' '] [] := writes_blank.emits.clears
  have hparts := (Line.spells hfirst).part
    ⟨hsecond.neat.blank rfl, hblank.append hsecond.clears⟩ rfl
  have hfor : Clears [.word "for".toList, .blank ' ', .symbol ['(']]
      [.word "for".toList, .symbol ['(']] :=
    (writes_word.append writes_blank).emits.clears.append (clears_symbol (by decide) (by decide))
  exact ⟨((hparts.neat.symbol rfl fun _ => rfl).blank rfl).word (by decide) rfl,
    hfor.append hparts.clears⟩

/-- The expressions of a header stand among its tokens. -/
theorem isInfix_of_slot {l : Line} {c : Category} {e : Expr}
    (hl : l = h.first ∨ l = .perform h.test ∨ l = h.update) (he : (c, e) ∈ l.slots) :
    e.tokens <:+: h.tokens := by
  have hinside {ts : List Token} (hts : ts <:+: h.first.tokens ++ ((Line.perform h.test).tokens ++
      .word h.counter.text.toList :: Line.valueTokens h.next ')')) : ts <:+: h.tokens :=
    hts.trans (suffix_append [Token.word "for".toList, .symbol ['(']] _).isInfix
  refine hinside ?_
  rcases hl with rfl | rfl | rfl
  · exact (Line.isInfix_of_slot he).trans (prefix_append _ _).isInfix
  · exact ((Line.isInfix_of_slot he).trans (prefix_append _ _).isInfix).trans
      (suffix_append _ _).isInfix
  · refine List.IsInfix.trans ?_ ((suffix_append _ _).trans (suffix_append _ _)).isInfix
    simp only [update, Line.slots, mem_cons, Prod.mk.injEq, not_mem_nil, or_false] at he
    rcases he with ⟨-, rfl⟩ | ⟨-, rfl⟩
    · exact (prefix_append [_] _).isInfix
    · exact (Line.isInfix_value h.next ')').trans (suffix_cons _ _).isInfix

end LoopHeader

/-! ## Sequences -/

namespace Code

/-- The condition of a branch. -/
def condLexemes (c : Expr) : List Lexeme :=
  .word "if".toList :: .blank ' ' :: .symbol ['('] :: (c.lexemes ++ [.symbol [')']])

/-- A condition as tokens. -/
def condTokens (c : Expr) : List Token :=
  .word "if".toList :: .symbol ['('] :: (c.tokens ++ [.symbol [')']])

/-- Code as it is written. -/
def lexemes (depth : Nat) : Code → List Lexeme
  | done => []
  | line l rest => row depth l.lexemes ++ rest.lexemes depth
  | branch c yes rest =>
    row depth (opened (condLexemes c)) ++ (yes.lexemes (depth + 1) ++
      (row depth [.symbol ['\x7d']] ++ rest.lexemes depth))
  | branchElse c yes no rest =>
    row depth (opened (condLexemes c)) ++ (yes.lexemes (depth + 1) ++
      (row depth (opened [.symbol ['\x7d'], .blank ' ', .word "else".toList]) ++
        (no.lexemes (depth + 1) ++ (row depth [.symbol ['\x7d']] ++ rest.lexemes depth))))
  | loop body rest =>
    row depth (opened [.word "loop".toList]) ++ (body.lexemes (depth + 1) ++
      (row depth [.symbol ['\x7d']] ++ rest.lexemes depth))
  | countLoop h body rest =>
    row depth (opened h.lexemes) ++ (body.lexemes (depth + 1) ++
      (row depth [.symbol ['\x7d']] ++ rest.lexemes depth))

/-- The tokens that are meant. -/
def tokens : Code → List Token
  | done => []
  | line l rest => l.tokens ++ rest.tokens
  | branch c yes rest =>
    condTokens c ++ [.symbol ['\x7b']] ++ (yes.tokens ++ ([.symbol ['\x7d']] ++ rest.tokens))
  | branchElse c yes no rest =>
    condTokens c ++ [.symbol ['\x7b']] ++ (yes.tokens ++
      ([.symbol ['\x7d'], .word "else".toList, .symbol ['\x7b']] ++ (no.tokens ++
        ([.symbol ['\x7d']] ++ rest.tokens))))
  | loop body rest =>
    [.word "loop".toList, .symbol ['\x7b']] ++ (body.tokens ++ ([.symbol ['\x7d']] ++ rest.tokens))
  | countLoop h body rest =>
    h.tokens ++ [.symbol ['\x7b']] ++ (body.tokens ++ ([.symbol ['\x7d']] ++ rest.tokens))

theorem cond_spells {c : Expr} (h : c.fits .expression = true) :
    Spells (opened (condLexemes c)) (condTokens c ++ [.symbol ['\x7b']]) := by
  have hword : Clears [.word "if".toList, .blank ' '] [.word "if".toList] :=
    (writes_word.append writes_blank).emits.clears
  have hcond := ((c.reads _ h).2.bracket (.inl ⟨rfl, rfl⟩)).clears
  refine Spells.opened ⟨?_, hword.append hcond⟩
  exact (((c.neat _ h).bracket (.inl ⟨rfl, rfl⟩)).blank rfl).word (by decide) rfl

/-- **Code is read as the tokens that are meant**, whatever comes behind it. -/
theorem spells_append {c : Code} (h : ∀ l ∈ c.lines, l.Fits) (depth : Nat) {ls : List Lexeme}
    {ts : List Token} (hls : Spells ls ts) : Spells (c.lexemes depth ++ ls) (c.tokens ++ ts) := by
  have hclose : Spells [.symbol ['\x7d']] [.symbol ['\x7d']] :=
    ⟨neat_singleton rfl, clears_symbol (by decide) (by decide)⟩
  induction c generalizing depth ls ts with
  | done => exact hls
  | line l rest ih =>
    obtain ⟨hl, hrest⟩ := forall_mem_cons.1 h
    rw [lexemes, tokens, List.append_assoc, List.append_assoc]
    exact (Line.spells hl).row_append depth (ih hrest depth hls)
  | branch c yes rest ihYes ihRest =>
    obtain ⟨hc, h⟩ := forall_mem_cons.1 h
    obtain ⟨hyes, hrest⟩ := forall_mem_append.1 h
    simp only [lexemes, tokens, List.append_assoc]
    have hend := ihYes hyes (depth + 1) (hclose.row_append depth (ihRest hrest depth hls))
    have hcond := (cond_spells (Line.fits_perform.1 hc)).row_append depth hend
    rwa [List.append_assoc] at hcond
  | branchElse c yes no rest ihYes ihNo ihRest =>
    obtain ⟨hc, h⟩ := forall_mem_cons.1 h
    obtain ⟨hyes, h⟩ := forall_mem_append.1 h
    obtain ⟨hno, hrest⟩ := forall_mem_append.1 h
    have helse : Spells [.symbol ['\x7d'], .blank ' ', .word "else".toList]
        [.symbol ['\x7d'], .word "else".toList] :=
      ⟨((neat_singleton (by decide)).blank rfl).symbol rfl fun _ => rfl,
        hclose.clears.append (writes_blank.append writes_word).emits.clears⟩
    simp only [lexemes, tokens, List.append_assoc]
    have hend := ihNo hno (depth + 1) (hclose.row_append depth (ihRest hrest depth hls))
    have hmiddle := ihYes hyes (depth + 1) (helse.opened.row_append depth hend)
    have hcond := (cond_spells (Line.fits_perform.1 hc)).row_append depth hmiddle
    rwa [List.append_assoc] at hcond
  | loop body rest ihBody ihRest =>
    obtain ⟨hbody, hrest⟩ := forall_mem_append.1 h
    have hloop : Spells [.word "loop".toList] [.word "loop".toList] :=
      ⟨neat_singleton (by decide), writes_word.emits.clears⟩
    simp only [lexemes, tokens, List.append_assoc]
    have hend := ihBody hbody (depth + 1) (hclose.row_append depth (ihRest hrest depth hls))
    exact hloop.opened.row_append depth hend
  | countLoop header body rest ihBody ihRest =>
    obtain ⟨hfirst, h⟩ := forall_mem_cons.1 h
    obtain ⟨htest, h⟩ := forall_mem_cons.1 h
    obtain ⟨hupdate, h⟩ := forall_mem_cons.1 h
    obtain ⟨hbody, hrest⟩ := forall_mem_append.1 h
    simp only [lexemes, tokens, List.append_assoc]
    have hend := ihBody hbody (depth + 1) (hclose.row_append depth (ihRest hrest depth hls))
    have hheader := (LoopHeader.spells hfirst htest hupdate).opened.row_append depth hend
    rwa [List.append_assoc] at hheader

theorem toList_cond {c : Expr} (h : c.fits .expression = true) (depth : Nat) :
    (lineAt depth s!"if ({c.text}) \x7b").toList =
      (row depth (opened (condLexemes c))).flatMap Lexeme.chars := by
  refine toList_lineAt ?_ depth
  simp [opened, condLexemes, Lexeme.chars, toString, c.toList_text _ h]

/-- The text of code is its lexemes. -/
theorem toList_text {c : Code} (h : ∀ l ∈ c.lines, l.Fits) (depth : Nat) :
    (c.text depth).toList = (c.lexemes depth).flatMap Lexeme.chars := by
  have hclose (depth : Nat) : (lineAt depth "\x7d").toList =
      (row depth [.symbol ['\x7d']]).flatMap Lexeme.chars := toList_lineAt rfl depth
  induction c generalizing depth with
  | done => rfl
  | line l rest ih =>
    obtain ⟨hl, hrest⟩ := forall_mem_cons.1 h
    simp [text, lexemes, toList_lineAt (Line.toList_text hl), ih hrest]
  | branch c yes rest ihYes ihRest =>
    obtain ⟨hc, h⟩ := forall_mem_cons.1 h
    obtain ⟨hyes, hrest⟩ := forall_mem_append.1 h
    rw [text, String.toList_append, String.toList_append, String.toList_append,
      toList_cond (Line.fits_perform.1 hc), ihYes hyes, hclose, ihRest hrest]
    simp [lexemes]
  | branchElse c yes no rest ihYes ihNo ihRest =>
    obtain ⟨hc, h⟩ := forall_mem_cons.1 h
    obtain ⟨hyes, h⟩ := forall_mem_append.1 h
    obtain ⟨hno, hrest⟩ := forall_mem_append.1 h
    have helse : (lineAt depth "\x7d else \x7b").toList = (row depth
        (opened [.symbol ['\x7d'], .blank ' ', .word "else".toList])).flatMap Lexeme.chars :=
      toList_lineAt rfl depth
    rw [text, String.toList_append, String.toList_append, String.toList_append,
      String.toList_append, String.toList_append, toList_cond (Line.fits_perform.1 hc), ihYes hyes,
      helse, ihNo hno, hclose, ihRest hrest]
    simp [lexemes]
  | loop body rest ihBody ihRest =>
    obtain ⟨hbody, hrest⟩ := forall_mem_append.1 h
    have hloop : (lineAt depth "loop \x7b").toList =
        (row depth (opened [.word "loop".toList])).flatMap Lexeme.chars := toList_lineAt rfl depth
    rw [text, String.toList_append, String.toList_append, String.toList_append, hloop,
      ihBody hbody, hclose, ihRest hrest]
    simp [lexemes]
  | countLoop header body rest ihBody ihRest =>
    obtain ⟨hfirst, h⟩ := forall_mem_cons.1 h
    obtain ⟨htest, h⟩ := forall_mem_cons.1 h
    obtain ⟨hupdate, h⟩ := forall_mem_cons.1 h
    obtain ⟨hbody, hrest⟩ := forall_mem_append.1 h
    have hheader : (lineAt depth (header.text ++ " \x7b")).toList =
        (row depth (opened header.lexemes)).flatMap Lexeme.chars := by
      refine toList_lineAt ?_ depth
      rw [String.toList_append, LoopHeader.toList_text hfirst htest hupdate, opened, flatMap_append]
      rfl
    rw [text, String.toList_append, String.toList_append, String.toList_append, hheader,
      ihBody hbody, hclose, ihRest hrest]
    simp [lexemes]

/-- The expressions of code stand among its tokens. -/
theorem isInfix_of_slot {code : Code} {l : Line} {c : Category} {e : Expr} (hl : l ∈ code.lines)
    (he : (c, e) ∈ l.slots) : e.tokens <:+: code.tokens := by
  have hleft {ts us vs : List Token} (h : ts <:+: us) : ts <:+: us ++ vs :=
    h.trans (prefix_append _ _).isInfix
  have hright {ts us vs : List Token} (h : ts <:+: vs) : ts <:+: us ++ vs :=
    h.trans (suffix_append _ _).isInfix
  have hcond {e' : Expr} (h : (c, e) ∈ (Line.perform e').slots) : e.tokens <:+: condTokens e' := by
    cases mem_singleton.1 h
    exact ⟨[.word "if".toList, .symbol ['(']], [.symbol [')']], rfl⟩
  induction code with
  | done => cases hl
  | line line rest ih =>
    rcases mem_cons.1 hl with rfl | hl
    · exact hleft (Line.isInfix_of_slot he)
    · exact hright (ih hl)
  | branch cond yes rest ihYes ihRest =>
    rcases mem_cons.1 hl with rfl | hl
    · exact hleft (hleft (hcond he))
    · rcases mem_append.1 hl with hl | hl
      · exact hright (hleft (ihYes hl))
      · exact hright (hright (hright (ihRest hl)))
  | branchElse cond yes no rest ihYes ihNo ihRest =>
    rcases mem_cons.1 hl with rfl | hl
    · exact hleft (hleft (hcond he))
    · rcases mem_append.1 hl with hl | hl
      · exact hright (hleft (ihYes hl))
      · rcases mem_append.1 hl with hl | hl
        · exact hright (hright (hright (hleft (ihNo hl))))
        · exact hright (hright (hright (hright (hright (ihRest hl)))))
  | loop body rest ihBody ihRest =>
    rcases mem_append.1 hl with hl | hl
    · exact hright (hleft (ihBody hl))
    · exact hright (hright (hright (ihRest hl)))
  | countLoop h body rest ihBody ihRest =>
    simp only [lines, mem_cons, mem_append] at hl
    rcases hl with hl | hl | hl | hl | hl
    · exact hleft (hleft (LoopHeader.isInfix_of_slot (.inl hl) he))
    · exact hleft (hleft (LoopHeader.isInfix_of_slot (.inr (.inl hl)) he))
    · exact hleft (hleft (LoopHeader.isInfix_of_slot (.inr (.inr hl)) he))
    · exact hright (hleft (ihBody hl))
    · exact hright (hright (hright (ihRest hl)))

end Code

/-! ## Shaders -/

namespace Source

/-- A brace ends what stands ahead of it, and settles every candidate. -/
theorem foldl_feed_open (st : State) (f : Fragment) : ∃ out, ['\x7b', '\n'].foldl feed (st, f) =
    ({ out := out ++ [.symbol ['\x7b']] }, .none) := by
  have hstop : f.extend? '\x7b' = none := f.extend?_of_isPart rfl
  refine ⟨(f.finish st).all, ?_⟩
  rw [foldl_cons, feed_of_stop hstop]
  rfl

/-- **A text that ends in lexemes**, behind the brace that opens a body. -/
theorem tokens_of_spells {text : String} {cs : List Char} {ls : List Lexeme} {ts : List Token}
    (htext : text.toList = cs ++ ['\x7b', '\n'] ++ ls.flatMap Lexeme.chars) (h : Spells ls ts) :
    ∃ front, Source.tokens text = front ++ .symbol ['\x7b'] :: ts := by
  obtain ⟨out, hopen⟩ := foldl_feed_open (cs.foldl feed ({}, .none)).1 (cs.foldl feed ({}, .none)).2
  obtain ⟨st', hreads, hpending, hout⟩ := h.clears { out := out ++ [.symbol ['\x7b']] } rfl
  have hscan := scan_lexemes (f := .none) h.neat.proper h.neat.chain (fun _ _ _ _ => rfl) hreads
  refine ⟨out, ?_⟩
  rw [Source.tokens, htext, scan, foldl_append, foldl_append, hopen]
  change State.all (scan _ _) = _
  rw [hscan, State.all, hpending, settle, hout, List.append_assoc]
  rfl

end Source

namespace Shader

/-- The declaration of the structure that a stage returns. -/
def declareLexemes : List Lexeme :=
  [.word "var".toList, .blank ' ', .word "stage_output".toList, .symbol [':'], .blank ' ',
    .word "StageOutput".toList, .symbol [';']]

/-- The output is declared. -/
def declareTokens : List Token :=
  [.word "var".toList, .word "stage_output".toList, .symbol [':'], .word "StageOutput".toList,
    .symbol [';']]

/-- Its return. -/
def returnLexemes : List Lexeme :=
  [.word "return".toList, .blank ' ', .word "stage_output".toList, .symbol [';']]

/-- The output is returned. -/
def returnTokens : List Token :=
  [.word "return".toList, .word "stage_output".toList, .symbol [';']]

/-- The entry point behind its opening brace. -/
def mainLexemes (s : Shader) : List Lexeme :=
  (if s.returnsOutput then row 1 declareLexemes else []) ++
    (s.prologue.lexemes 1 ++ (s.body.lexemes 1 ++
      ((if s.returnsOutput then row 1 returnLexemes else []) ++ row 0 [.symbol ['\x7d']])))

/-- The body of the entry point. -/
def mainTokens (s : Shader) : List Token :=
  (if s.returnsOutput then declareTokens else []) ++
    (s.prologue.tokens ++ (s.body.tokens ++
      ((if s.returnsOutput then returnTokens else []) ++ [.symbol ['\x7d']])))

theorem declare_spells : Spells declareLexemes declareTokens := by
  have hwords : Writes [.word "var".toList, .blank ' ', .word "stage_output".toList]
      [.word "var".toList, .word "stage_output".toList] :=
    writes_word.append (writes_blank.append writes_word)
  have htype : Writes [.blank ' ', .word "StageOutput".toList] [.word "StageOutput".toList] :=
    writes_blank.append writes_word
  constructor
  · have hend : Neat [.word "StageOutput".toList, .symbol [';']] :=
      (neat_singleton rfl).word (by decide) rfl
    have hcolon : Neat [.symbol [':'], .blank ' ', .word "StageOutput".toList, .symbol [';']] :=
      (hend.blank rfl).symbol rfl fun _ => rfl
    exact ((hcolon.word (by decide) rfl).blank rfl).word (by decide) rfl
  · exact hwords.emits.clears.append ((clears_symbol (by decide) (by decide)).append
      (htype.emits.clears.append (clears_symbol (by decide) (by decide))))

theorem return_spells : Spells returnLexemes returnTokens := by
  have hwords : Writes [.word "return".toList, .blank ' ', .word "stage_output".toList]
      [.word "return".toList, .word "stage_output".toList] :=
    writes_word.append (writes_blank.append writes_word)
  constructor
  · have hend : Neat [.word "stage_output".toList, .symbol [';']] :=
      (neat_singleton rfl).word (by decide) rfl
    exact (hend.blank rfl).word (by decide) rfl
  · exact hwords.emits.clears.append (clears_symbol (by decide) (by decide))

/-- The entry point is read as its tokens. -/
theorem main_spells {s : Shader} (h : ∀ l ∈ s.prologue.lines ++ s.body.lines, l.Fits) :
    Spells s.mainLexemes s.mainTokens := by
  obtain ⟨hprologue, hbody⟩ := forall_mem_append.1 h
  have hopt {ls ls' : List Lexeme} {ts ts' : List Token} (h : Spells ls ts) (h' : Spells ls' ts') :
      Spells ((if s.returnsOutput then row 1 ls else []) ++ ls')
        ((if s.returnsOutput then ts else []) ++ ts') := by
    split
    · exact h.row_append 1 h'
    · exact h'
  have hbrace : Spells [.symbol ['\x7d']] [.symbol ['\x7d']] :=
    ⟨neat_singleton rfl, clears_symbol (by decide) (by decide)⟩
  have hend : Spells (row 0 [.symbol ['\x7d']]) [.symbol ['\x7d']] := by
    simpa using hbrace.row_append 0 ⟨neat_nil, writes_nil.emits.clears⟩
  exact hopt declare_spells (Code.spells_append hprologue 1
    (Code.spells_append hbody 1 (hopt return_spells hend)))

/-- The entry point up to its opening brace. -/
theorem toList_signatureText (s : Shader) :
    ∃ cs, s.signatureText.toList = cs ++ ['\x7b', '\n'] := by
  have hlast : "@builtin(num_workgroups) num_workgroups: vec3<u32>) \x7b\n".toList =
      "@builtin(num_workgroups) num_workgroups: vec3<u32>) ".toList ++ ['\x7b', '\n'] := by
    rw [String.toList_ofList, String.toList_ofList]
    rfl
  unfold signatureText
  cases s.stage with
  | compute =>
    simp only [String.toList_append, hlast]
    exact ⟨_, (List.append_assoc _ _ _).symm⟩
  | vertex | fragment =>
    simp only [String.toList_append]
    exact ⟨_, rfl⟩

/-- **A shader is read as the tokens of its code.** -/
theorem tokens_text {s : Shader} (h : ∀ l ∈ s.prologue.lines ++ s.body.lines, l.Fits) :
    ∃ front, Source.tokens s.text = front ++ .symbol ['\x7b'] :: s.mainTokens := by
  obtain ⟨hprologue, hbody⟩ := forall_mem_append.1 h
  obtain ⟨cs, hcs⟩ := s.toList_signatureText
  have hopt {text : String} {ls : List Lexeme} (h : text.toList = (row 1 ls).flatMap Lexeme.chars) :
      (if s.returnsOutput then text else "").toList =
        (if s.returnsOutput then row 1 ls else []).flatMap Lexeme.chars := by
    split
    · exact h
    · rfl
  have hdeclare : "    var stage_output: StageOutput;\n".toList =
      (row 1 declareLexemes).flatMap Lexeme.chars := rfl
  have hreturn : "    return stage_output;\n".toList =
      (row 1 returnLexemes).flatMap Lexeme.chars := rfl
  have hend : "\x7d\n".toList = (row 0 [.symbol ['\x7d']]).flatMap Lexeme.chars := rfl
  have htext : s.text.toList = ((String.join (s.globals.map Global.text) ++
      (if s.random then randomHelpers else "") ++ structText "StageInput" s.layout.inputs ++
      structText "StageOutput" s.layout.outputs).toList ++ cs) ++ ['\x7b', '\n'] ++
        s.mainLexemes.flatMap Lexeme.chars := by
    unfold text mainLexemes
    simp only [String.toList_append, hcs, hopt hdeclare, hopt hreturn, hend,
      Code.toList_text hprologue, Code.toList_text hbody, flatMap_append, List.append_assoc]
  exact tokens_of_spells htext (main_spells h)

/-- The expressions of a shader stand among the tokens of its entry point. -/
theorem isInfix_of_slot {s : Shader} {l : Line} {c : Category} {e : Expr}
    (hl : l ∈ s.prologue.lines ++ s.body.lines) (he : (c, e) ∈ l.slots) :
    e.tokens <:+: s.mainTokens := by
  refine List.IsInfix.trans ?_ (suffix_append _ _).isInfix
  rcases mem_append.1 hl with hl | hl
  · exact (Code.isInfix_of_slot hl he).trans (prefix_append _ _).isInfix
  · exact ((Code.isInfix_of_slot hl he).trans (prefix_append _ _).isInfix).trans
      (suffix_append _ _).isInfix

end Shader

end WgslKernel
