import WgslKernel.Proofs.Source.Lexemes

/-!
# Expressions read back

An expression is written as lexemes, read as tokens and meant as an operator tree.  It may lack the
parentheses that it would need; `Expr.fits` says where one can stand as it is.  The text of an
expression that fits has one tree, and it is the one that is meant.
-/

namespace WgslKernel

open Source

/-! ## Expressions as lexemes, tokens and trees -/

namespace Literal

/-- A literal is one number, behind its sign. -/
def lexemes (l : Literal) : List Lexeme :=
  (if l.isNegative then [.symbol ['-']] else []) ++ [.number l.digits]

/-- A literal as tokens. -/
def tokens (l : Literal) : List Token :=
  (if l.isNegative then [.symbol ['-']] else []) ++ [.number l.digits]

/-- A sign is a unary operator. -/
def tree (l : Literal) : Tree :=
  if l.isNegative then .unary '-' (.literal l.digits) else .literal l.digits

end Literal

namespace Expr

mutual

/-- An expression as it is written. -/
def lexemes : Expr → List Lexeme
  | ident name => [.word name.text.toList]
  | lit literal => literal.lexemes
  | neg e => .symbol ['-'] :: e.lexemes
  | bitNot e => .symbol ['~'] :: e.lexemes
  | binary op lhs rhs =>
    lhs.lexemes ++ .blank ' ' :: .symbol op.chars :: .blank ' ' :: rhs.lexemes
  | paren e => .symbol ['('] :: (e.lexemes ++ [.symbol [')']])
  | call callee args => callee.lexemes ++ .symbol ['('] :: (lexemesOf args ++ [.symbol [')']])
  | select e selector => e.lexemes ++ [.symbol ['.'], .word selector.text.toList]
  | index e i => e.lexemes ++ .symbol ['['] :: (i.lexemes ++ [.symbol [']']])
  | address e => .symbol ['&'] :: e.lexemes

/-- Arguments with commas between them. -/
def lexemesOf : List Expr → List Lexeme
  | [] => []
  | [e] => e.lexemes
  | e :: e' :: es => e.lexemes ++ .symbol [','] :: .blank ' ' :: lexemesOf (e' :: es)

end

mutual

/-- The tokens that are meant. -/
def tokens : Expr → List Token
  | ident name => [.word name.text.toList]
  | lit literal => literal.tokens
  | neg e => .symbol ['-'] :: e.tokens
  | bitNot e => .symbol ['~'] :: e.tokens
  | binary op lhs rhs => lhs.tokens ++ op.token :: rhs.tokens
  | paren e => .symbol ['('] :: (e.tokens ++ [.symbol [')']])
  | call callee args => callee.tokens ++ .symbol ['('] :: (tokensOf args ++ [.symbol [')']])
  | select e selector => e.tokens ++ [.symbol ['.'], .word selector.text.toList]
  | index e i => e.tokens ++ .symbol ['['] :: (i.tokens ++ [.symbol [']']])
  | address e => .symbol ['&'] :: e.tokens

/-- Arguments as tokens, with commas. -/
def tokensOf : List Expr → List Token
  | [] => []
  | [e] => e.tokens
  | e :: e' :: es => e.tokens ++ .symbol [','] :: tokensOf (e' :: es)

end

mutual

/-- The operator tree that is meant. -/
def tree : Expr → Tree
  | ident name => .name name.text.toList
  | lit literal => literal.tree
  | neg e => .unary '-' e.tree
  | bitNot e => .unary '~' e.tree
  | binary op lhs rhs => .binary op lhs.tree rhs.tree
  | paren e => e.tree
  | call callee args => .call callee.tree (treeOf args)
  | select e selector => .member e.tree selector.text.toList
  | index e i => .index e.tree i.tree
  | address e => .unary '&' e.tree

/-- Arguments as trees. -/
def treeOf : List Expr → Tree
  | [] => .nothing
  | e :: es => .more e.tree (treeOf es)

end

/-! ## Expressions that fit -/

/-- Anything but an expression of an operator that matters for template lists. -/
def isQuiet : Expr → Bool
  | binary op _ _ =>
    match op with
    | .lt | .le | .gt | .ge | .shl | .shr | .and | .or => false
    | _ => true
  | _ => true

/-- A member or an element can be taken from the expression. -/
def isPlace : Expr → Bool
  | lit _ => false
  | _ => true

mutual

/-- The expression can stand as it is where a category is asked for. -/
def fits : Expr → Category → Bool
  | ident _, c => c.takes .callee
  | lit literal, c =>
    literal.isWritten && c.takes (if literal.isNegative then .unary else .primary)
  | neg e, c => c.takes .unary && e.fits .singular
  | bitNot e, c => c.takes .unary && e.fits .unary
  | binary op lhs rhs, c =>
    c.takes op.category && (lhs.fits op.left && lhs.isQuiet) && (rhs.fits op.right && rhs.isQuiet)
  | paren e, c => c.takes .primary && e.fits .expression
  | call _ args, c => c.takes .primary && fitAll args
  | select e _, c => c.takes .singular && (e.fits .singular && e.isPlace)
  | index e i, c => c.takes .singular && (e.fits .singular && e.isPlace) && i.fits .expression
  | address e, c => c.takes .unary && e.fits .singular

/-- The expressions can be arguments.  Only the last may matter for template lists. -/
def fitAll : List Expr → Bool
  | [] => true
  | [e] => e.fits .expression
  | e :: e' :: es => (e.fits .expression && e.isQuiet) && fitAll (e' :: es)

end

mutual

/-- **An expression that fits derives its tree.** -/
theorem derives : ∀ (e : Expr) (c : Category), e.fits c = true → Derives c e.tokens e.tree
  | ident name, c, h => Derives.name.mono h
  | lit literal, c, h => by
    obtain ⟨-, hc⟩ := Bool.and_eq_true_iff.1 h
    unfold tokens tree Literal.tokens Literal.tree
    split
    · rename_i hneg
      rw [if_pos hneg] at hc
      exact (Derives.unary (by decide) (Derives.literal.mono (by decide))).mono hc
    · rename_i hneg
      rw [if_neg hneg] at hc
      exact Derives.literal.mono hc
  | neg e, c, h => by
    obtain ⟨hc, he⟩ := Bool.and_eq_true_iff.1 h
    exact (Derives.unary (by decide) ((derives e _ he).mono (by decide))).mono hc
  | bitNot e, c, h => by
    obtain ⟨hc, he⟩ := Bool.and_eq_true_iff.1 h
    exact (Derives.unary (by decide) (derives e _ he)).mono hc
  | address e, c, h => by
    obtain ⟨hc, he⟩ := Bool.and_eq_true_iff.1 h
    exact (Derives.unary (by decide) ((derives e _ he).mono (by decide))).mono hc
  | binary op lhs rhs, c, h => by
    simp only [fits, Bool.and_eq_true] at h
    exact (Derives.binary op (derives lhs _ h.1.2.1) (derives rhs _ h.2.1)).mono h.1.1
  | paren e, c, h => by
    obtain ⟨hc, he⟩ := Bool.and_eq_true_iff.1 h
    exact (Derives.paren (derives e _ he)).mono hc
  | call callee args, c, h => by
    obtain ⟨hc, hargs⟩ := Bool.and_eq_true_iff.1 h
    have hlist := derivesOf args hargs
    by_cases hne : args = []
    · rw [hne]
      exact (Derives.callNothing callee.derives).mono hc
    · exact (Derives.call callee.derives (hlist hne)).mono hc
  | select e selector, c, h => by
    simp only [fits, Bool.and_eq_true] at h
    exact (Derives.member (derives e _ h.2.1)).mono h.1
  | index e i, c, h => by
    simp only [fits, Bool.and_eq_true] at h
    exact (Derives.index (derives e _ h.1.2.1) (derives i _ h.2)).mono h.1.1

theorem derivesOf : ∀ es : List Expr, fitAll es = true → es ≠ [] →
    Derives .list (tokensOf es) (treeOf es)
  | [], _, hne => absurd rfl hne
  | [e], h, _ => Derives.last (derives e _ h)
  | e :: e' :: es, h, _ => by
    simp only [fitAll, Bool.and_eq_true] at h
    exact Derives.more (derives e _ h.1.1) (derivesOf (e' :: es) h.2 (List.cons_ne_nil _ _))

end

/-! ## Their text -/

mutual

/-- The text of an expression is its lexemes. -/
theorem toList_text : ∀ (e : Expr) (c : Category), e.fits c = true →
    e.text.toList = e.lexemes.flatMap Lexeme.chars
  | ident name, _, _ => by simp [text, lexemes, Lexeme.chars]
  | lit literal, c, h => by
    rw [text, literal.toList_text (Bool.and_eq_true_iff.1 h).1, lexemes, Literal.lexemes]
    split <;> simp [Lexeme.chars]
  | neg e, c, h => by
    simp [text, lexemes, Lexeme.chars, toList_text e _ (Bool.and_eq_true_iff.1 h).2]
  | bitNot e, c, h => by
    simp [text, lexemes, Lexeme.chars, toList_text e _ (Bool.and_eq_true_iff.1 h).2]
  | address e, c, h => by
    simp [text, lexemes, Lexeme.chars, toList_text e _ (Bool.and_eq_true_iff.1 h).2]
  | binary op lhs rhs, c, h => by
    simp only [fits, Bool.and_eq_true] at h
    simp [text, lexemes, Lexeme.chars, toList_text lhs _ h.1.2.1, toList_text rhs _ h.2.1,
      op.toList_symbol]
  | paren e, c, h => by
    simp [text, lexemes, Lexeme.chars, toList_text e _ (Bool.and_eq_true_iff.1 h).2]
  | call callee args, c, h => by
    simp [text, lexemes, Lexeme.chars, callee.toList_text,
      toList_texts args (Bool.and_eq_true_iff.1 h).2]
  | select e selector, c, h => by
    simp only [fits, Bool.and_eq_true] at h
    simp [text, lexemes, Lexeme.chars, toList_text e _ h.2.1]
  | index e i, c, h => by
    simp only [fits, Bool.and_eq_true] at h
    simp [text, lexemes, Lexeme.chars, toList_text e _ h.1.2.1, toList_text i _ h.2]

theorem toList_texts : ∀ es : List Expr, fitAll es = true →
    (String.intercalate ", " (texts es)).toList = (lexemesOf es).flatMap Lexeme.chars
  | [], _ => rfl
  | [e], h => by simp [texts, lexemesOf, toList_text e _ h]
  | e :: e' :: es, h => by
    simp only [fitAll, Bool.and_eq_true] at h
    have hrest := toList_texts (e' :: es) h.2
    rw [texts] at hrest
    simp [texts, lexemesOf, Lexeme.chars, toList_text e _ h.1.1, hrest]

end

theorem not_takes_operator {c : Category} (hc : Category.takes .unary c = true) (op : Operator) :
    c.takes op.category = false := by
  revert hc
  cases op <;> cases c <;> decide

/-- Operands without a sign do not begin with one. -/
theorem head_firm : ∀ e : Expr, e.fits .singular = true → ∃ l, e.lexemes.head? = some l ∧ l.Firm
  | ident name, _ => ⟨_, rfl, .word _⟩
  | lit literal, h => by
    have hsign : literal.isNegative = false := by
      by_contra hneg
      rw [Bool.not_eq_false] at hneg
      rw [fits, if_pos hneg] at h
      revert h
      cases literal.isWritten <;> decide
    exact ⟨.number literal.digits, by simp [lexemes, Literal.lexemes, hsign], .number _⟩
  | paren _, _ => ⟨_, rfl, .paren⟩
  | call callee _, _ => by
    obtain ⟨w, hw⟩ := callee.head_lexemes
    exact ⟨_, by simp [lexemes, hw], .word w⟩
  | select e _, h => by
    simp only [fits, Bool.and_eq_true] at h
    obtain ⟨l, hl, hfirm⟩ := head_firm e h.2.1
    exact ⟨l, by simp [lexemes, hl], hfirm⟩
  | index e _, h => by
    simp only [fits, Bool.and_eq_true] at h
    obtain ⟨l, hl, hfirm⟩ := head_firm e h.1.2.1
    exact ⟨l, by simp [lexemes, hl], hfirm⟩
  | neg e, h | bitNot e, h | address e, h => by
    have hnot : Category.takes .singular .unary = false := by decide
    simp [fits, hnot] at h
  | binary op _ _, h => by simp [fits, not_takes_operator (c := .singular) rfl] at h

/-- A point behind a place does not go on with it. -/
theorem place_meets {e : Expr} (h : e.fits .singular = true) (hplace : e.isPlace = true)
    {l : Lexeme} (hl : l ∈ e.lexemes.getLast?) : Fragment.extend? l.fragment '.' = none := by
  have hlast : e.lexemes.getLast? = some (.symbol [')']) ∨
      e.lexemes.getLast? = some (.symbol [']']) ∨ ∃ w, e.lexemes.getLast? = some (.word w) := by
    cases e with
    | ident name => exact .inr (.inr ⟨_, rfl⟩)
    | lit literal => cases hplace
    | paren e => exact .inl (by simp [lexemes, List.getLast?_cons])
    | call callee args => exact .inl (by simp [lexemes, List.getLast?_cons])
    | select e selector => exact .inr (.inr ⟨selector.text.toList, by simp [lexemes]⟩)
    | index e i => exact .inr (.inl (by simp [lexemes, List.getLast?_cons]))
    | neg e | bitNot e | address e =>
      have hnot : Category.takes .singular .unary = false := by decide
      simp [fits, hnot] at h
    | binary op lhs rhs => simp [fits, not_takes_operator (c := .singular) rfl] at h
  rw [Option.mem_def] at hl
  rcases hlast with hlast | hlast | ⟨w, hlast⟩ <;> cases hl.symm.trans hlast <;> rfl

mutual

/-- **An expression that fits is written in lexemes that do not run into each other.** -/
theorem neat : ∀ (e : Expr) (c : Category), e.fits c = true → Neat e.lexemes
  | ident name, _, _ => neat_singleton name.isProper_text
  | lit literal, _, _ => by
    have hnumber : Neat [.number literal.digits] := neat_singleton literal.isProper_digits
    unfold lexemes Literal.lexemes
    split
    · exact hnumber.sign rfl (.number _) (.inl rfl)
    · exact hnumber
  | neg e, _, h => by
    have he := (Bool.and_eq_true_iff.1 h).2
    obtain ⟨l, hl, hfirm⟩ := head_firm e he
    exact (neat e _ he).sign hl hfirm (.inl rfl)
  | address e, _, h => by
    have he := (Bool.and_eq_true_iff.1 h).2
    obtain ⟨l, hl, hfirm⟩ := head_firm e he
    exact (neat e _ he).sign hl hfirm (.inr (.inl rfl))
  | bitNot e, _, h => (neat e _ (Bool.and_eq_true_iff.1 h).2).symbol rfl fun _ => rfl
  | binary op lhs rhs, _, h => by
    simp only [fits, Bool.and_eq_true] at h
    have hop : (Lexeme.symbol op.chars).isProper = true := by cases op <;> decide
    exact (neat lhs _ h.1.2.1).part ((neat rhs _ h.2.1).spaced hop) rfl
  | paren e, _, h => (neat e _ (Bool.and_eq_true_iff.1 h).2).bracket (.inl ⟨rfl, rfl⟩)
  | call callee args, _, h => by
    have hargs := neatOf args (Bool.and_eq_true_iff.1 h).2
    exact callee.neat.part (hargs.bracket (.inl ⟨rfl, rfl⟩)) rfl
  | select e selector, _, h => by
    simp only [fits, Bool.and_eq_true] at h
    have hmember : Neat [.symbol ['.'], .word selector.text.toList] :=
      (neat_singleton selector.isProper_text).symbol rfl fun _ => rfl
    refine (neat e _ h.2.1).append hmember fun l hl l' hl' => ?_
    cases hl'
    rintro c ⟨⟩
    exact place_meets h.2.1 h.2.2 hl
  | index e i, _, h => by
    simp only [fits, Bool.and_eq_true] at h
    exact (neat e _ h.1.2.1).part ((neat i _ h.2).bracket (.inr ⟨rfl, rfl⟩)) rfl

theorem neatOf : ∀ es : List Expr, fitAll es = true → Neat (lexemesOf es)
  | [], _ => neat_nil
  | [e], h => neat e _ h
  | e :: e' :: es, h => by
    simp only [fitAll, Bool.and_eq_true] at h
    have hrest := (neatOf (e' :: es) h.2).blank (c := ' ') rfl
    exact (neat e _ h.1.1).part (hrest.symbol rfl fun _ => rfl) rfl

end

/-- Operators that do not matter for template lists. -/
theorem writes_operator {op : Operator} {lhs rhs : Expr} (h : (binary op lhs rhs).isQuiet = true) :
    Writes [.symbol op.chars] [op.token] := by
  cases op with
  | lt | le | gt | ge | shl | shr | and | or => cases h
  | _ => exact writes_symbol (by decide) fun _ => rfl

/-- The others, where there is no candidate. -/
theorem fills_operator {op : Operator} {lhs rhs : Expr} (h : (binary op lhs rhs).isQuiet = false)
    {ls : List Lexeme} {ts : List Token} (hemits : Emits ls ts) :
    Fills (.symbol op.chars :: ls) (op.token :: ts) := by
  cases op with
  | lt => exact fills_less hemits
  | le =>
    refine fills_symbol (fun st _ => ⟨_, rfl, ?_⟩) hemits
    change Keeps st (if st.afterWord then _ else _) _
    split
    · exact .inl rfl
    · exact .inr rfl
  | gt | ge | shl | shr => exact fills_symbol (fun st _ => ⟨_, rfl, .inl rfl⟩) hemits
  | and | or =>
    refine fills_symbol (fun st hst => ⟨_, rfl, .inl ?_⟩) hemits
    change st.giveUp.emit _ = _
    rw [hst.giveUp]
    rfl
  | _ => cases h

/-- What an operator can stand ahead of has none of its own. -/
theorem isQuiet_of_fits {e : Expr} {c : Category} (h : e.fits c = true)
    (hc : Category.unary.takes c = true) : e.isQuiet = true := by
  cases e with
  | binary op lhs rhs =>
    simp [fits, not_takes_operator hc] at h
  | _ => rfl

theorem emits_sign {sign : Char} (hsign : sign = '-' ∨ sign = '&' ∨ sign = '~') {ls : List Lexeme}
    {ts : List Token} (h : Emits ls ts) :
    Emits (.symbol [sign] :: ls) (.symbol [sign] :: ts) := by
  have hwrites : Writes [.symbol [sign]] [.symbol [sign]] := by
    rcases hsign with rfl | rfl | rfl <;> exact writes_symbol (by decide) fun _ => rfl
  exact hwrites.emits.append h

mutual

/-- **An expression that fits is read as the tokens that are meant.** -/
theorem reads : ∀ (e : Expr) (c : Category), e.fits c = true →
    (e.isQuiet = true → Emits e.lexemes e.tokens) ∧ Fills e.lexemes e.tokens
  | ident _, _, _ => ⟨fun _ => writes_word.emits, writes_word.emits.fills⟩
  | lit literal, _, _ => by
    have hemits : Emits literal.lexemes literal.tokens := by
      unfold Literal.lexemes Literal.tokens
      split
      · exact emits_sign (.inl rfl) writes_number.emits
      · exact writes_number.emits
    exact ⟨fun _ => hemits, hemits.fills⟩
  | neg e, _, h => by
    have he := (Bool.and_eq_true_iff.1 h).2
    have hemits := emits_sign (.inl rfl) ((reads e _ he).1 (isQuiet_of_fits he (by decide)))
    exact ⟨fun _ => hemits, hemits.fills⟩
  | bitNot e, _, h => by
    have he := (Bool.and_eq_true_iff.1 h).2
    have hemits := emits_sign (.inr (.inr rfl))
      ((reads e _ he).1 (isQuiet_of_fits he (by decide)))
    exact ⟨fun _ => hemits, hemits.fills⟩
  | address e, _, h => by
    have he := (Bool.and_eq_true_iff.1 h).2
    have hemits := emits_sign (.inr (.inl rfl))
      ((reads e _ he).1 (isQuiet_of_fits he (by decide)))
    exact ⟨fun _ => hemits, hemits.fills⟩
  | binary op lhs rhs, _, h => by
    simp only [fits, Bool.and_eq_true] at h
    have hlhs := ((reads lhs _ h.1.2.1).1 h.1.2.2).append (writes_blank (c := ' ')).emits
    have hrhs := (writes_blank (c := ' ')).emits.append ((reads rhs _ h.2.1).1 h.2.2)
    rw [List.append_nil] at hlhs
    have hsplit : (binary op lhs rhs).lexemes =
        (lhs.lexemes ++ [.blank ' ']) ++ .symbol op.chars :: ([.blank ' '] ++ rhs.lexemes) := by
      simp [lexemes]
    rw [hsplit, tokens]
    by_cases hquiet : (binary op lhs rhs).isQuiet = true
    · have hemits := hlhs.append ((writes_operator hquiet).emits.append hrhs)
      exact ⟨fun _ => hemits, hemits.fills⟩
    · rw [Bool.not_eq_true] at hquiet
      exact ⟨fun h => absurd h (by simp [hquiet]),
        hlhs.fills_append (fills_operator hquiet hrhs)⟩
  | paren e, _, h => by
    have hemits := (reads e _ (Bool.and_eq_true_iff.1 h).2).2.bracket (.inl ⟨rfl, rfl⟩)
    exact ⟨fun _ => hemits, hemits.fills⟩
  | call callee args, _, h => by
    have hargs := (readsOf args (Bool.and_eq_true_iff.1 h).2).bracket (.inl ⟨rfl, rfl⟩)
    have hemits := callee.writes.emits.append hargs
    exact ⟨fun _ => hemits, hemits.fills⟩
  | select e selector, _, h => by
    simp only [fits, Bool.and_eq_true] at h
    have hmember : Writes [.symbol ['.'], .word selector.text.toList]
        [.symbol ['.'], .word selector.text.toList] :=
      (writes_symbol (by decide) fun _ => rfl).append writes_word
    have hemits := ((reads e _ h.2.1).1 (isQuiet_of_fits h.2.1 (by decide))).append hmember.emits
    exact ⟨fun _ => hemits, hemits.fills⟩
  | index e i, _, h => by
    simp only [fits, Bool.and_eq_true] at h
    have hindex := (reads i _ h.2).2.bracket (.inr ⟨rfl, rfl⟩)
    have hemits := ((reads e _ h.1.2.1).1 (isQuiet_of_fits h.1.2.1 (by decide))).append hindex
    exact ⟨fun _ => hemits, hemits.fills⟩

theorem readsOf : ∀ es : List Expr, fitAll es = true → Fills (lexemesOf es) (tokensOf es)
  | [], _ => writes_nil.emits.fills
  | [e], h => (reads e _ h).2
  | e :: e' :: es, h => by
    simp only [fitAll, Bool.and_eq_true] at h
    have hcomma : Writes [.symbol [','], .blank ' '] [.symbol [',']] :=
      (writes_symbol (by decide) fun _ => rfl).append writes_blank
    have hfirst := ((reads e _ h.1.1).1 h.1.2).append hcomma.emits
    have hall := hfirst.fills_append (readsOf (e' :: es) h.2)
    rw [lexemesOf, tokensOf]
    simpa using hall

end

/-- **The text of an expression is read as the tokens that are meant.** -/
theorem tokens_text {e : Expr} {c : Category} (h : e.fits c = true) :
    Source.tokens e.text = e.tokens := by
  obtain ⟨st', hreads, hends⟩ := (e.reads c h).2 {} fun _ hk => by cases hk
  have hneat := e.neat c h
  have hscan := scan_lexemes (f := .none) hneat.proper hneat.chain (fun _ _ _ _ => rfl) hreads
  rw [Source.tokens, e.toList_text c h, hscan]
  rcases hends with hkeeps | ⟨st₁, ts₁, ts₂, hkeeps, rfl, hts⟩
  · obtain ⟨hpending, hout⟩ := hkeeps.clear rfl
    rw [State.all, hpending, hout]
    rfl
  · obtain ⟨hpending, hout⟩ := hkeeps.clear rfl
    rw [hts, State.all, State.candidate, hpending, hout]
    rfl

/-- **An expression that fits has one tree.** -/
theorem derives_iff {e : Expr} {c : Category} (h : e.fits c = true)
    (hc : Category.takes .expression c = true) (t : Tree) : Derives c e.tokens t ↔ t = e.tree :=
  ⟨fun ht => (ht.mono hc).unique ((e.derives c h).mono hc), fun ht => ht ▸ e.derives c h⟩

end Expr

end WgslKernel
