import Mathlib.Data.List.Chain

/-!
# Shader text as tokens

A token is as long as it can be, except that an angle bracket may delimit a template list.  A `<`
behind a word is a candidate: it opens a list if a `>` is found at the same depth of brackets, and
is an operator if something comes first that no list can hold.  What is read from lexemes depends on
the candidates alone.  `Writes` and `Emits` are pieces of text that leave none behind; `Fills` are
those that fill the space between two brackets and may leave one.
-/

namespace WgslKernel.Source

open List

/-! ## Tokens -/

/-- What the text of a shader is made of. -/
inductive Token where
  /-- A keyword or an identifier. -/
  | word (cs : List Char)
  | number (cs : List Char)
  /-- Digits that are no number. -/
  | malformed (cs : List Char)
  /-- An operator or a punctuation mark. -/
  | symbol (cs : List Char)
  /-- The delimiters of a template list. -/
  | openList
  | closeList
  deriving DecidableEq, Repr

/-- A character that begins a word. -/
def isLetter (c : Char) : Bool := c.isAlpha || c == '_'

/-- A character that goes on with a word. -/
def isWordChar (c : Char) : Bool := c.isAlphanum || c == '_'

/-- A hexadecimal digit. -/
def isHexDigit (c : Char) : Bool := "0123456789abcdefABCDEF".toList.contains c

/-- How far a number has come. -/
inductive Numeral where
  /-- A zero. -/
  | zero
  /-- Digits behind a zero: only a point or an exponent can make a number of them. -/
  | padded
  | whole
  /-- `0x`, and what follows it. -/
  | base
  | hex
  /-- Behind the point. -/
  | fraction
  /-- Behind `e`, behind the sign of the exponent, and in its digits. -/
  | exponent
  | sign
  | power
  | suffixed
  deriving DecidableEq, Repr

namespace Numeral

/-- A number after its first digit. -/
def first (c : Char) : Numeral := if c = '0' then zero else whole

/-- The number with one more character. -/
def next? : Numeral → Char → Option Numeral
  | zero, c =>
    if c.isDigit then some padded
    else match c with
      | 'x' | 'X' => some base
      | '.' => some fraction
      | 'e' | 'E' => some exponent
      | 'i' | 'u' | 'f' | 'h' => some suffixed
      | _ => none
  | padded, c =>
    if c.isDigit then some padded
    else match c with
      | '.' => some fraction
      | 'e' | 'E' => some exponent
      | _ => none
  | whole, c =>
    if c.isDigit then some whole
    else match c with
      | '.' => some fraction
      | 'e' | 'E' => some exponent
      | 'i' | 'u' | 'f' | 'h' => some suffixed
      | _ => none
  | base, c => if isHexDigit c then some hex else none
  | hex, c => if isHexDigit c then some hex else if c = 'i' ∨ c = 'u' then some suffixed else none
  | fraction, c =>
    if c.isDigit then some fraction
    else match c with
      | 'e' | 'E' => some exponent
      | 'f' | 'h' => some suffixed
      | _ => none
  | exponent, c =>
    if c.isDigit then some power else if c = '+' ∨ c = '-' then some sign else none
  | sign, c => if c.isDigit then some power else none
  | power, c => if c.isDigit then some power else if c = 'f' ∨ c = 'h' then some suffixed else none
  | suffixed, _ => none

/-- What was read so far is a number. -/
def isComplete : Numeral → Bool
  | zero | whole | hex | fraction | power | suffixed => true
  | padded | base | exponent | sign => false

/-- Where the characters of a number lead to. -/
def ofChars : List Char → Option Numeral
  | [] => none
  | c :: cs => if c.isDigit then cs.foldlM next? (first c) else none

end Numeral

/-- A symbol goes on with one more character.  The marks of a comment are symbols too. -/
def joins (cs : List Char) (c : Char) : Bool :=
  match cs with
  | ['<'] => c == '<' || c == '='
  | ['>'] => c == '>' || c == '='
  | ['&'] => c == '&' || c == '='
  | ['|'] => c == '|' || c == '='
  | ['+'] => c == '+' || c == '='
  | ['-'] => c == '-' || c == '=' || c == '>'
  | ['/'] => c == '/' || c == '=' || c == '*'
  | ['='] | ['!'] | ['*'] | ['%'] | ['^'] | ['<', '<'] | ['>', '>'] => c == '='
  | _ => false

/-! ## Template lists -/

/-- A `<` that may open a template list: the depth it stands at, and the tokens ahead of it. -/
structure Candidate where
  depth : Nat
  ahead : List Token
  deriving DecidableEq, Repr

/-- Give up the latest candidates, down to those at a lower depth: they are operators. -/
def settle (depth : Nat) : List Candidate → List Token → List Candidate × List Token
  | [], out => ([], out)
  | k :: ks, out =>
    if depth ≤ k.depth then settle depth ks (k.ahead ++ .symbol ['<'] :: out) else (k :: ks, out)

/-- What has been read: the candidates, the open brackets, and the tokens behind the latest one. -/
structure State where
  pending : List Candidate := []
  depth : Nat := 0
  out : List Token := []
  deriving DecidableEq, Repr

namespace State

/-- All tokens so far, if no candidate opens a list. -/
def all (st : State) : List Token := (settle 0 st.pending st.out).2

/-- No candidate opens a list, and no bracket is open. -/
def fresh (st : State) : State := { out := st.all }

/-- More tokens behind the others. -/
def plus (st : State) (ts : List Token) : State := { st with out := st.out ++ ts }

/-- One more token. -/
def emit (st : State) (t : Token) : State := st.plus [t]

/-- A `<` opens a list only behind a word. -/
def afterWord (st : State) : Bool :=
  match st.out.getLast? with
  | some (.word _) => true
  | _ => false

/-- A bracket that may open a list. -/
def candidate (st : State) (ts : List Token) : State :=
  { st with pending := ⟨st.depth, st.out⟩ :: st.pending, out := ts }

/-- A `>` ends a list here. -/
def closes (st : State) : Bool :=
  match st.pending with
  | k :: _ => k.depth == st.depth
  | [] => false

/-- A list that ends here. -/
def close (st : State) : State :=
  match st.pending with
  | k :: ks => { st with pending := ks, out := k.ahead ++ .openList :: (st.out ++ [.closeList]) }
  | [] => st

/-- Give up the candidates between the innermost brackets. -/
def giveUp (st : State) : State :=
  let r := settle st.depth st.pending st.out
  { st with pending := r.1, out := r.2 }

/-- Read a symbol other than the end of a list. -/
def symbol (st : State) (cs : List Char) : State :=
  match cs with
  | ['<'] => if st.afterWord then st.candidate [] else st.emit (.symbol cs)
  | ['('] | ['['] => { st.emit (.symbol cs) with depth := st.depth + 1 }
  | [')'] | [']'] => { st.giveUp.emit (.symbol cs) with depth := st.depth - 1 }
  | ['&', '&'] | ['|', '|'] => st.giveUp.emit (.symbol cs)
  -- The `=` of `<=` counts as an assignment where the `<` is not behind a word.
  | ['<', '='] => if st.afterWord then st.emit (.symbol cs) else st.fresh.emit (.symbol cs)
  | [';'] | [':'] | ['\x7b'] | ['='] | ['+', '='] | ['-', '='] | ['*', '='] | ['/', '=']
  | ['%', '='] | ['&', '='] | ['|', '='] | ['^', '='] | ['<', '<', '='] =>
    st.fresh.emit (.symbol cs)
  | _ => st.emit (.symbol cs)

theorem symbol_less (st : State) : st.symbol ['<'] =
    if st.afterWord then st.candidate [] else st.emit (.symbol ['<']) := rfl

theorem symbol_open {o d : List Char} (st : State)
    (h : o = ['('] ∧ d = [')'] ∨ o = ['['] ∧ d = [']']) :
    st.symbol o = { st.emit (.symbol o) with depth := st.depth + 1 } := by
  rcases h with ⟨rfl, -⟩ | ⟨rfl, -⟩ <;> rfl

theorem symbol_close {o d : List Char} (st : State)
    (h : o = ['('] ∧ d = [')'] ∨ o = ['['] ∧ d = [']']) :
    st.symbol d = { st.giveUp.emit (.symbol d) with depth := st.depth - 1 } := by
  rcases h with ⟨-, rfl⟩ | ⟨-, rfl⟩ <;> rfl

end State

/-! ## Reading -/

/-- A token that may go on. -/
inductive Fragment where
  | none
  | word (cs : List Char)
  | number (n : Numeral) (cs : List Char)
  | symbol (cs : List Char)
  deriving DecidableEq, Repr

namespace Fragment

/-- The fragment with one more character. -/
def extend? : Fragment → Char → Option Fragment
  | none, _ => Option.none
  | word cs, c => if isWordChar c then some (word (cs ++ [c])) else Option.none
  | number n cs, c => (n.next? c).map fun n => number n (cs ++ [c])
  | symbol cs, c => if joins cs c then some (symbol (cs ++ [c])) else Option.none

/-- Read the token as it is. -/
def finish (st : State) : Fragment → State
  | none => st
  | word cs => st.emit (.word cs)
  | number n cs => st.emit (if n.isComplete then .number cs else .malformed cs)
  | symbol cs => st.symbol cs

end Fragment

/-- Begin a token. -/
def start (st : State) (c : Char) : State × Fragment :=
  if isLetter c then (st, .word [c])
  else if c.isDigit then (st, .number (.first c) [c])
  else if c.isWhitespace then (st, .none)
  else if c = '>' ∧ st.closes then (st.close, .none)
  else (st, .symbol [c])

/-- Read a character. -/
def feed (s : State × Fragment) (c : Char) : State × Fragment :=
  match s.2.extend? c with
  | some f => (s.1, f)
  | none => start (s.2.finish s.1) c

/-- Read text up to its end. -/
def scan (s : State × Fragment) (cs : List Char) : State :=
  let r := cs.foldl feed s
  r.2.finish r.1

/-- **The tokens of a text.** -/
def tokens (text : String) : List Token := (scan ({}, .none) text.toList).all

/-! ## Lexemes -/

/-- A piece of text that is meant to be read as one. -/
inductive Lexeme where
  | blank (c : Char)
  | word (cs : List Char)
  | number (cs : List Char)
  | symbol (cs : List Char)
  /-- The end of a template list. -/
  | close
  deriving DecidableEq, Repr

/-- The characters of a symbol go together, behind those in `cs`. -/
def joined (cs : List Char) : List Char → Bool
  | [] => true
  | d :: ds => joins cs d && joined (cs ++ [d]) ds

namespace Lexeme

/-- The characters of a lexeme. -/
def chars : Lexeme → List Char
  | blank c => [c]
  | word cs | number cs | symbol cs => cs
  | close => ['>']

/-- The lexeme is one of its kind. -/
def isProper : Lexeme → Bool
  | blank c => c == ' ' || c == '\n'
  | word cs => (cs.head?.any isLetter) && cs.all isWordChar
  | number cs => (Numeral.ofChars cs).any Numeral.isComplete
  | symbol [] => false
  | symbol (c :: cs) => !isLetter c && !c.isDigit && !c.isWhitespace && joined [c] cs
  | close => true

/-- The token that is not finished at the end of the lexeme. -/
def fragment : Lexeme → Fragment
  | word cs => .word cs
  | number cs => .number ((Numeral.ofChars cs).getD .zero) cs
  | symbol cs => .symbol cs
  | blank _ | close => .none

/-- Read a lexeme as what it is meant to be. -/
def accept (st : State) : Lexeme → Option State
  | blank _ => some st
  | word cs => some (st.emit (.word cs))
  | number cs => some (st.emit (.number cs))
  | symbol cs => if cs.head? = some '>' ∧ st.closes then none else some (st.symbol cs)
  | close => if st.closes then some st.close else none

/-- A lexeme does not run into the text behind it. -/
def Stops (f : Fragment) (l : Lexeme) : Prop := ∀ c ∈ l.chars.head?, f.extend? c = none

end Lexeme

variable {st st' : State} {f : Fragment} {c : Char} {cs : List Char} {l : Lexeme}
  {ls ls' : List Lexeme} {ts us : List Token}

theorem Lexeme.chars_ne_nil (h : l.isProper = true) : l.chars ≠ [] := by
  cases l with
  | blank | close => exact cons_ne_nil _ _
  | word cs | number cs | symbol cs =>
    rintro rfl
    cases h

theorem not_isLetter_of_isDigit (h : c.isDigit = true) : isLetter c = false := by
  rw [Bool.eq_false_iff]
  intro hletter
  delta isLetter Char.isAlpha Char.isUpper Char.isLower at hletter
  simp only [Char.isDigit, Bool.or_eq_true, Bool.and_eq_true, decide_eq_true_eq, beq_iff_eq,
    ge_iff_le] at h hletter
  rcases hletter with (⟨hc, -⟩ | ⟨hc, -⟩) | rfl
  · exact absurd (UInt32.le_trans hc h.2) (by decide)
  · exact absurd (UInt32.le_trans hc h.2) (by decide)
  · exact absurd h.2 (by decide)

theorem feed_of_extend {g : Fragment} (h : f.extend? c = some g) : feed (st, f) c = (st, g) := by
  simp [feed, h]

/-- What cannot go on is finished before the next character is read. -/
theorem feed_of_stop (h : f.extend? c = none) : feed (st, f) c = start (f.finish st) c := by
  simp [feed, h]

theorem foldl_feed_word (h : cs.all isWordChar = true) (w : List Char) :
    cs.foldl feed (st, .word w) = (st, .word (w ++ cs)) := by
  induction cs generalizing w with
  | nil => simp
  | cons c cs ih =>
    rw [all_cons, Bool.and_eq_true] at h
    have hstep : Fragment.extend? (.word w) c = some (.word (w ++ [c])) := by
      simp [Fragment.extend?, h.1]
    rw [foldl_cons, feed_of_extend hstep, ih h.2]
    simp

theorem foldl_feed_number {n n' : Numeral} (h : cs.foldlM Numeral.next? n = some n')
    (w : List Char) : cs.foldl feed (st, .number n w) = (st, .number n' (w ++ cs)) := by
  induction cs generalizing n w with
  | nil =>
    cases h
    simp
  | cons c cs ih =>
    rw [foldlM_cons] at h
    obtain ⟨m, hm, h⟩ := Option.bind_eq_some_iff.1 h
    have hstep : Fragment.extend? (.number n w) c = some (.number m (w ++ [c])) := by
      simp [Fragment.extend?, hm]
    rw [foldl_cons, feed_of_extend hstep, ih h]
    simp

theorem foldl_feed_symbol {w : List Char} (h : joined w cs = true) :
    cs.foldl feed (st, .symbol w) = (st, .symbol (w ++ cs)) := by
  induction cs generalizing w with
  | nil => simp
  | cons c cs ih =>
    rw [joined, Bool.and_eq_true] at h
    have hstep : Fragment.extend? (.symbol w) c = some (.symbol (w ++ [c])) := by
      simp [Fragment.extend?, h.1]
    rw [foldl_cons, feed_of_extend hstep, ih h.2]
    simp

/-- A lexeme by itself. -/
theorem Lexeme.feed (hl : l.isProper = true) (h : l.accept st = some st') :
    ∃ st₁, l.chars.foldl feed (st, .none) = (st₁, l.fragment) ∧ l.fragment.finish st₁ = st' := by
  cases l with
  | blank c =>
    cases h
    simp only [isProper, Bool.or_eq_true, beq_iff_eq] at hl
    rcases hl with rfl | rfl <;> exact ⟨_, rfl, rfl⟩
  | word cs =>
    cases h
    obtain ⟨hhead, hall⟩ := Bool.and_eq_true_iff.1 hl
    cases cs with
    | nil => simp at hhead
    | cons c cs =>
      rw [all_cons, Bool.and_eq_true] at hall
      have hc : isLetter c = true := by simpa using hhead
      have hstart : Source.feed (st, .none) c = (st, .word [c]) := by
        simp [Source.feed, Fragment.extend?, Fragment.finish, start, hc]
      refine ⟨st, ?_, rfl⟩
      rw [chars, foldl_cons, hstart, foldl_feed_word hall.2]
      rfl
  | number cs =>
    cases h
    obtain ⟨n, hn, hcomplete⟩ := (Option.any_eq_true _ _).1 hl
    cases cs with
    | nil => simp [Numeral.ofChars] at hn
    | cons c cs =>
      rw [fragment, hn]
      rw [Numeral.ofChars] at hn
      split at hn
      · rename_i hc
        have hstart : Source.feed (st, .none) c = (st, .number (.first c) [c]) := by
          simp [Source.feed, Fragment.extend?, Fragment.finish, start, not_isLetter_of_isDigit hc,
            hc]
        refine ⟨st, ?_, ?_⟩
        · rw [chars, foldl_cons, hstart, foldl_feed_number hn]
          rfl
        · simp [Fragment.finish, hcomplete]
      · cases hn
  | symbol cs =>
    cases cs with
    | nil => cases hl
    | cons c cs =>
      simp only [isProper, Bool.and_eq_true, Bool.not_eq_true'] at hl
      obtain ⟨⟨⟨hletter, hdigit⟩, hblank⟩, hjoined⟩ := hl
      rw [accept] at h
      split at h
      · cases h
      · rename_i hcloses
        cases h
        have hstart : Source.feed (st, .none) c = (st, .symbol [c]) := by
          simp only [List.head?_cons, Option.some.injEq] at hcloses
          simp [Source.feed, Fragment.extend?, Fragment.finish, start, hletter, hdigit, hblank,
            hcloses]
        refine ⟨st, ?_, rfl⟩
        rw [chars, foldl_cons, hstart, foldl_feed_symbol hjoined]
        rfl
  | close =>
    rw [accept] at h
    split at h
    · rename_i hcloses
      cases h
      refine ⟨st.close, ?_, rfl⟩
      have hstart : Source.feed (st, .none) '>' = (st.close, .none) := by
        simp +decide [Source.feed, Fragment.extend?, Fragment.finish, start, hcloses]
      rw [chars, foldl_cons, hstart]
      rfl
    · cases h

/-- **Text is read lexeme by lexeme**, if none of them runs into the next. -/
theorem scan_lexemes (hproper : ∀ l ∈ ls, l.isProper = true)
    (hchain : ls.IsChain fun l l' => l'.Stops l.fragment) (hstop : ∀ l ∈ ls.head?, l.Stops f)
    (haccept : ls.foldlM Lexeme.accept (f.finish st) = some st') :
    scan (st, f) (ls.flatMap Lexeme.chars) = st' := by
  induction ls generalizing st f with
  | nil =>
    cases haccept
    rfl
  | cons l ls ih =>
    obtain ⟨hl, hproper⟩ := forall_mem_cons.1 hproper
    rw [foldlM_cons] at haccept
    obtain ⟨st₂, hst₂, haccept⟩ := Option.bind_eq_some_iff.1 haccept
    obtain ⟨st₁, hfeed, hfinish⟩ := l.feed hl hst₂
    rw [← hfinish] at haccept
    have hrest := ih hproper hchain.tail (fun l' hl' => ?_) haccept
    · -- Finishing `f` ahead of the lexeme makes no difference.
      have hcut : l.chars.foldl feed (st, f) = l.chars.foldl feed (f.finish st, .none) := by
        cases hchars : l.chars with
        | nil => exact absurd hchars (Lexeme.chars_ne_nil hl)
        | cons c cs =>
          have hc : f.extend? c = none := hstop l (by simp) c (by simp [hchars])
          rw [foldl_cons, foldl_cons, feed_of_stop hc]
          rfl
      rw [scan, flatMap_cons, foldl_append, hcut, hfeed]
      exact hrest
    · cases ls with
      | nil => cases hl'
      | cons l'' ls =>
        cases hl'
        exact (isChain_cons_cons.1 hchain).1

/-! ## What lexemes do to the candidates -/

theorem settle_append (depth : Nat) (ks : List Candidate) (out : List Token) :
    settle depth ks (out ++ ts) =
      ((settle depth ks out).1, (settle depth ks out).2 ++ ts) := by
  induction ks generalizing out with
  | nil => rfl
  | cons k ks ih =>
    rw [settle, settle]
    split
    · rw [← cons_append, ← List.append_assoc, ih]
    · rfl

/-- Candidates at lower depths are kept. -/
theorem settle_of_lt {depth : Nat} {ks : List Candidate} (h : ∀ k ∈ ks, k.depth < depth)
    (out : List Token) : settle depth ks out = (ks, out) := by
  cases ks with
  | nil => rfl
  | cons k ks => rw [settle, if_neg (Nat.not_le.2 (h k mem_cons_self))]

namespace State

@[simp] theorem plus_plus (st : State) (ts us : List Token) :
    (st.plus ts).plus us = st.plus (ts ++ us) := by simp [plus]

@[simp] theorem fresh_plus (st : State) (ts : List Token) :
    (st.plus ts).fresh = st.fresh.plus ts := by simp [fresh, plus, all, settle_append]

@[simp] theorem fresh_fresh (st : State) : st.fresh.fresh = st.fresh := rfl

theorem fresh_candidate (st : State) (ts : List Token) :
    (st.candidate ts).fresh = st.fresh.plus (.symbol ['<'] :: ts) := by
  simp [fresh, candidate, all, settle, plus, settle_append]

/-- No candidate stands deeper than the innermost brackets. -/
def Bounded (st : State) : Prop := ∀ k ∈ st.pending, k.depth ≤ st.depth

/-- No candidate stands between the innermost brackets. -/
def Calm (st : State) : Prop := ∀ k ∈ st.pending, k.depth < st.depth

theorem Calm.bounded (h : st.Calm) : st.Bounded := fun k hk => (h k hk).le

theorem calm_fresh (st : State) : st.fresh.Calm := fun _ hk => by cases hk

theorem Calm.plus (h : st.Calm) (ts : List Token) : (st.plus ts).Calm := h

theorem Bounded.candidate (h : st.Bounded) (ts : List Token) : (st.candidate ts).Bounded :=
  forall_mem_cons.2 ⟨Nat.le_refl _, h⟩

theorem Calm.closes (h : st.Calm) : st.closes = false := by
  unfold State.closes
  split
  · rename_i k _ hpending
    have := h k (by simp [hpending])
    simp [this.ne]
  · rfl

theorem Calm.giveUp (h : st.Calm) : st.giveUp = st := by
  simp [State.giveUp, settle_of_lt h]

end State

/-- The state behind tokens that leave no candidate.  An assignment gives up those ahead too. -/
def Keeps (st st' : State) (ts : List Token) : Prop :=
  st' = st.plus ts ∨ st' = st.fresh.plus ts

theorem Keeps.trans {st'' : State} (h : Keeps st st' ts) (h' : Keeps st' st'' us) :
    Keeps st st'' (ts ++ us) := by
  rcases h with rfl | rfl <;> rcases h' with rfl | rfl
  · exact .inl (State.plus_plus ..)
  all_goals exact .inr (by simp)

theorem Keeps.bounded (h : Keeps st st' ts) (hst : st.Bounded) : st'.Bounded := by
  rcases h with rfl | rfl
  · exact hst
  · exact (State.calm_fresh st).bounded

theorem Keeps.calm (h : Keeps st st' ts) (hst : st.Calm) : st'.Calm := by
  rcases h with rfl | rfl
  · exact hst
  · exact State.calm_fresh st

/-- Lexemes that are read as they are meant, from one state to another. -/
def Reads (st : State) (ls : List Lexeme) (st' : State) : Prop :=
  ls.foldlM Lexeme.accept st = some st'

/-- Lexemes are read in sequence. -/
theorem Reads.append {st'' : State} (h : Reads st ls st') (h' : Reads st' ls' st'') :
    Reads st (ls ++ ls') st'' := by
  rw [Reads, foldlM_append, h]
  exact h'

/-- Lexemes that are read as `ts`, and change nothing else. -/
def Writes (ls : List Lexeme) (ts : List Token) : Prop := ∀ st, Reads st ls (st.plus ts)

/-- Lexemes that are read as `ts`, and leave no candidate. -/
def Emits (ls : List Lexeme) (ts : List Token) : Prop :=
  ∀ st : State, st.Bounded → ∃ st', Reads st ls st' ∧ Keeps st st' ts

/-- Lexemes that are read as `ts` where no candidate stands ahead of them, and may leave one. -/
def Fills (ls : List Lexeme) (ts : List Token) : Prop :=
  ∀ st : State, st.Calm → ∃ st', Reads st ls st' ∧ (Keeps st st' ts ∨
    ∃ st₁ ts₁ ts₂, Keeps st st₁ ts₁ ∧ st' = st₁.candidate ts₂ ∧ ts = ts₁ ++ .symbol ['<'] :: ts₂)

/-- Lexemes that are read as `ts` where there are no candidates, and leave none. -/
def Clears (ls : List Lexeme) (ts : List Token) : Prop :=
  ∀ st : State, st.pending = [] →
    ∃ st', Reads st ls st' ∧ st'.pending = [] ∧ st'.out = st.out ++ ts

theorem writes_nil : Writes [] [] := fun st => by simp [Reads, State.plus]

/-- Pieces without candidates follow each other. -/
theorem Writes.append (h : Writes ls ts) (h' : Writes ls' us) : Writes (ls ++ ls') (ts ++ us) :=
  fun st => by
    have := (h st).append (h' _)
    rwa [State.plus_plus] at this

theorem writes_blank : Writes [.blank c] [] := fun st => by simp [Reads, Lexeme.accept, State.plus]

theorem writes_word : Writes [.word cs] [.word cs] := fun _ => rfl

theorem writes_number : Writes [.number cs] [.number cs] := fun _ => rfl

/-- Symbols that have nothing to do with template lists. -/
theorem writes_symbol (hc : cs.head? ≠ some '>')
    (h : ∀ st : State, st.symbol cs = st.emit (.symbol cs)) : Writes [.symbol cs] [.symbol cs] :=
  fun st => by simp [Reads, Lexeme.accept, hc, h, State.emit]

/-- **A template list**: the `<` is a candidate, and the `>` is at its depth. -/
theorem Writes.template (h : Writes ls ts) :
    Writes (.word cs :: .symbol ['<'] :: (ls ++ [.close]))
      (.word cs :: .openList :: (ts ++ [.closeList])) := by
  intro st
  have hword : Reads st [.word cs] (st.plus [.word cs]) := writes_word st
  have hopen : Reads (st.plus [.word cs]) [.symbol ['<']] ((st.plus [.word cs]).candidate []) := by
    simp [Reads, Lexeme.accept, State.symbol_less, State.afterWord, State.plus]
  have hlist := h ((st.plus [.word cs]).candidate [])
  have hclose : Reads (((st.plus [.word cs]).candidate []).plus ts) [.close]
      (st.plus (.word cs :: .openList :: (ts ++ [.closeList]))) := by
    simp [Reads, Lexeme.accept, State.closes, State.close, State.plus, State.candidate]
  have hall := ((hword.append hopen).append hlist).append hclose
  simpa using hall

theorem Writes.emits (h : Writes ls ts) : Emits ls ts := fun st _ => ⟨_, h st, .inl rfl⟩

theorem Emits.append (h : Emits ls ts) (h' : Emits ls' us) : Emits (ls ++ ls') (ts ++ us) := by
  intro st hst
  obtain ⟨st₁, hreads, hkeeps⟩ := h st hst
  obtain ⟨st₂, hreads', hkeeps'⟩ := h' st₁ (hkeeps.bounded hst)
  exact ⟨st₂, hreads.append hreads', hkeeps.trans hkeeps'⟩

theorem Emits.fills (h : Emits ls ts) : Fills ls ts := fun st hst => by
  obtain ⟨st', hreads, hkeeps⟩ := h st hst.bounded
  exact ⟨st', hreads, .inl hkeeps⟩

theorem Emits.fills_append (h : Emits ls ts) (h' : Fills ls' us) :
    Fills (ls ++ ls') (ts ++ us) := by
  intro st hst
  obtain ⟨st₁, hreads, hkeeps⟩ := h st hst.bounded
  obtain ⟨st₂, hreads', hends⟩ := h' st₁ (hkeeps.calm hst)
  refine ⟨st₂, hreads.append hreads', ?_⟩
  rcases hends with hkeeps' | ⟨st₃, ts₁, ts₂, hkeeps', rfl, rfl⟩
  · exact .inl (hkeeps.trans hkeeps')
  · exact .inr ⟨st₃, ts ++ ts₁, ts₂, hkeeps.trans hkeeps', rfl, by simp⟩

/-- Symbols that look like the end of a list, where there is no candidate. -/
theorem fills_symbol (h : ∀ st : State, st.Calm → ∃ st', st.symbol cs = st' ∧
    Keeps st st' [.symbol cs]) (hemits : Emits ls' us) :
    Fills (.symbol cs :: ls') (.symbol cs :: us) := by
  intro st hst
  obtain ⟨st₁, hst₁, hkeeps⟩ := h st hst
  obtain ⟨st₂, hreads, hkeeps'⟩ := hemits st₁ (hkeeps.bounded hst.bounded)
  have hfirst : Reads st [.symbol cs] st₁ := by
    simp [Reads, Lexeme.accept, hst.closes, hst₁]
  exact ⟨st₂, hfirst.append hreads, .inl (hkeeps.trans hkeeps')⟩

/-- An operator `<`: a candidate if a word is ahead of it, which what follows does not close. -/
theorem fills_less (hemits : Emits ls' us) :
    Fills (.symbol ['<'] :: ls') (.symbol ['<'] :: us) := by
  intro st hst
  by_cases hword : st.afterWord = true
  · obtain ⟨st₂, hreads, hkeeps⟩ := hemits (st.candidate []) (hst.bounded.candidate _)
    have hfirst : Reads st [.symbol ['<']] (st.candidate []) := by
      simp [Reads, Lexeme.accept, State.symbol_less, hword]
    refine ⟨st₂, hfirst.append hreads, ?_⟩
    rcases hkeeps with rfl | rfl
    · exact .inr ⟨st, [], us, .inl (by simp [State.plus]),
        by simp [State.plus, State.candidate], rfl⟩
    · exact .inl (.inr (by simp [State.fresh_candidate]))
  · obtain ⟨st₂, hreads, hkeeps⟩ := hemits (st.emit (.symbol ['<'])) (hst.plus _).bounded
    have hfirst : Reads st [.symbol ['<']] (st.emit (.symbol ['<'])) := by
      simp [Reads, Lexeme.accept, State.symbol_less, hword]
    exact ⟨st₂, hfirst.append hreads, .inl (Keeps.trans (.inl rfl) hkeeps)⟩

/-- **Brackets hold what they enclose**: a candidate between them is given up at the second. -/
theorem Fills.bracket {o d : List Char} (h : Fills ls ts)
    (hbrackets : o = ['('] ∧ d = [')'] ∨ o = ['['] ∧ d = [']']) :
    Emits (.symbol o :: (ls ++ [.symbol d])) (.symbol o :: (ts ++ [.symbol d])) := by
  intro st hst
  have hno : o.head? ≠ some '>' ∧ d.head? ≠ some '>' := by
    rcases hbrackets with ⟨rfl, rfl⟩ | ⟨rfl, rfl⟩ <;> decide
  have hopen : Reads st [.symbol o] { st.plus [.symbol o] with depth := st.depth + 1 } := by
    simp [Reads, Lexeme.accept, hno, State.symbol_open st hbrackets, State.emit]
  have hinside : State.Calm { st.plus [.symbol o] with depth := st.depth + 1 } :=
    fun k hk => Nat.lt_succ_of_le (hst k hk)
  obtain ⟨st₁, hreads, hends⟩ := h _ hinside
  have hlast (st₁ : State) : Reads st₁ [.symbol d]
      { st₁.giveUp.emit (.symbol d) with depth := st₁.depth - 1 } := by
    simp [Reads, Lexeme.accept, hno, State.symbol_close st₁ hbrackets]
  refine ⟨_, (hopen.append hreads).append (hlast st₁), ?_⟩
  have hout {st₂ : State} {us : List Token}
      (hkeeps : Keeps { st.plus [.symbol o] with depth := st.depth + 1 } st₂ us) :
      Keeps st { st₂.giveUp.emit (.symbol d) with depth := st₂.depth - 1 }
        (.symbol o :: (us ++ [.symbol d])) := by
    rw [(hkeeps.calm hinside).giveUp]
    rcases hkeeps with rfl | rfl
    · exact .inl (by simp [State.emit, State.plus])
    · exact .inr (by simp [State.emit, State.plus, State.fresh, State.all, settle_append])
  rcases hends with hkeeps | ⟨st₂, ts₁, ts₂, hkeeps, rfl, rfl⟩
  · exact hout hkeeps
  · have hgiveUp : (st₂.candidate ts₂).giveUp = st₂.giveUp.plus (.symbol ['<'] :: ts₂) := by
      simp [State.giveUp, State.candidate, settle, settle_append, State.plus]
    have hplus : Keeps { st.plus [.symbol o] with depth := st.depth + 1 }
        (st₂.plus (.symbol ['<'] :: ts₂)) (ts₁ ++ .symbol ['<'] :: ts₂) :=
      hkeeps.trans (.inl rfl)
    have hsame :
        (st₂.plus (.symbol ['<'] :: ts₂)).giveUp = st₂.giveUp.plus (.symbol ['<'] :: ts₂) := by
      simp [State.giveUp, State.plus, settle_append]
    have hlast := hout hplus
    rw [hsame] at hlast
    rw [hgiveUp]
    exact hlast

/-! ### Statements -/

theorem Keeps.clear (h : Keeps st st' ts) (hst : st.pending = []) :
    st'.pending = [] ∧ st'.out = st.out ++ ts := by
  rcases h with rfl | rfl
  · exact ⟨hst, rfl⟩
  · exact ⟨rfl, by simp [State.fresh, State.all, State.plus, hst, settle]⟩

theorem Clears.append (h : Clears ls ts) (h' : Clears ls' us) : Clears (ls ++ ls') (ts ++ us) := by
  intro st hst
  obtain ⟨st₁, hreads, hst₁, hout⟩ := h st hst
  obtain ⟨st₂, hreads', hst₂, hout'⟩ := h' st₁ hst₁
  exact ⟨st₂, hreads.append hreads', hst₂, by rw [hout', hout, List.append_assoc]⟩

theorem Emits.clears (h : Emits ls ts) : Clears ls ts := by
  intro st hst
  obtain ⟨st', hreads, hkeeps⟩ := h st fun k hk => by simp [hst] at hk
  exact ⟨st', hreads, hkeeps.clear hst⟩

/-- Only a `<` is a candidate, and only a `>` needs one. -/
theorem clears_symbol (hc : cs.head? ≠ some '>') (hcs : cs ≠ ['<']) :
    Clears [.symbol cs] [.symbol cs] := by
  intro st hst
  refine ⟨st.symbol cs, by simp [Reads, Lexeme.accept, hc], ?_⟩
  have hfresh : Keeps st (st.fresh.plus [.symbol cs]) [.symbol cs] := .inr rfl
  unfold State.symbol
  split
  · exact absurd rfl hcs
  · exact ⟨hst, rfl⟩
  · exact ⟨hst, rfl⟩
  · simp [State.giveUp, State.emit, State.plus, hst, settle]
  · simp [State.giveUp, State.emit, State.plus, hst, settle]
  · simp [State.giveUp, State.emit, State.plus, hst, settle]
  · simp [State.giveUp, State.emit, State.plus, hst, settle]
  · split
    · exact ⟨hst, rfl⟩
    · exact hfresh.clear hst
  all_goals first
    | exact hfresh.clear hst
    | exact ⟨hst, rfl⟩

/-- A symbol that ends a statement or its head settles everything ahead of it. -/
theorem Fills.clears (h : Fills ls ts)
    (hcs : ∀ st : State, st.symbol cs = st.fresh.emit (.symbol cs)) (hc : cs.head? ≠ some '>') :
    Clears (ls ++ [.symbol cs]) (ts ++ [.symbol cs]) := by
  intro st hst
  obtain ⟨st', hreads, hends⟩ := h st fun k hk => by simp [hst] at hk
  have hall : st'.all = st.out ++ ts := by
    have hkept {st₁ : State} {us : List Token} (hkeeps : Keeps st st₁ us) :
        st₁.all = st.out ++ us := by
      obtain ⟨hpending, hout⟩ := hkeeps.clear hst
      rw [State.all, hpending, settle, hout]
    rcases hends with hkeeps | ⟨st₁, ts₁, ts₂, hkeeps, rfl, rfl⟩
    · exact hkept hkeeps
    · have hcandidate : (st₁.candidate ts₂).all = st₁.all ++ .symbol ['<'] :: ts₂ := by
        simp [State.all, State.candidate, settle, settle_append]
      rw [hcandidate, hkept hkeeps, List.append_assoc]
  have hlast : Reads st' [.symbol cs] (st'.fresh.emit (.symbol cs)) := by
    simp [Reads, Lexeme.accept, hc, hcs]
  refine ⟨_, hreads.append hlast, rfl, ?_⟩
  simp [State.emit, State.plus, State.fresh, hall]

end WgslKernel.Source
