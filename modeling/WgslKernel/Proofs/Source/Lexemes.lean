import WgslKernel.Proofs.Decimal.RoundTrip
import WgslKernel.Proofs.Interface.Text
import WgslKernel.Proofs.Source.Grammar

/-!
# Names, literals and types as lexemes

Lexemes that do not run into each other are `Neat`.  A name is one word; a literal is one number,
behind one minus sign if it is negative; a type is a word, or a word with a template list.
-/

namespace WgslKernel

open List

open Source

/-! ## Lexemes side by side -/

namespace Source

variable {c : Char} {cs : List Char} {l l' : Lexeme} {ls ls' : List Lexeme}

/-- A character that ends whatever stands ahead of it. -/
def isPart (c : Char) : Bool :=
  [' ', '\n', '(', ')', '[', ']', '\x7b', '\x7d', ',', ';', ':'].contains c

theorem joins_of_isPart (h : isPart c = true) : joins cs c = false := by
  have hne : c ≠ '<' ∧ c ≠ '=' ∧ c ≠ '>' ∧ c ≠ '&' ∧ c ≠ '|' ∧ c ≠ '+' ∧ c ≠ '-' ∧ c ≠ '/' ∧
      c ≠ '*' := by
    refine ⟨?_, ?_, ?_, ?_, ?_, ?_, ?_, ?_, ?_⟩ <;> rintro rfl <;> cases h
  unfold joins
  split <;> simp [hne]

theorem Fragment.extend?_of_isPart (f : Fragment) (h : isPart c = true) :
    f.extend? c = Option.none := by
  cases f with
  | none => rfl
  | symbol cs => simp [extend?, joins_of_isPart h]
  | word cs =>
    have hword : isWordChar c = false := by
      simp only [isPart, contains_iff_mem, mem_cons, not_mem_nil, or_false] at h
      rcases h with rfl | rfl | rfl | rfl | rfl | rfl | rfl | rfl | rfl | rfl | rfl <;> decide
    simp [extend?, hword]
  | number n cs =>
    have hnext : n.next? c = Option.none := by
      simp only [isPart, contains_iff_mem, mem_cons, not_mem_nil, or_false] at h
      rcases h with rfl | rfl | rfl | rfl | rfl | rfl | rfl | rfl | rfl | rfl | rfl <;>
        cases n <;> rfl
    simp [extend?, hnext]

namespace Lexeme

/-- The lexeme ends whatever stands ahead of it. -/
def parts (l : Lexeme) : Bool := l.chars.head?.all isPart

/-- The lexeme ends a word that stands ahead of it. -/
def isMark : Lexeme → Bool
  | word _ | number _ => false
  | _ => true

/-- An operand without a sign can begin with the lexeme. -/
inductive Firm : Lexeme → Prop where
  | word (cs : List Char) : Firm (.word cs)
  | number (cs : List Char) : Firm (.number cs)
  | paren : Firm (.symbol ['('])

/-- Symbols that go on with nothing. -/
theorem stops_of_joins (h : ∀ c, joins cs c = false) : l.Stops (.symbol cs) := fun c _ => by
  simp [Fragment.extend?, h]

theorem stops_of_parts {f : Fragment} (h : l.parts = true) : l.Stops f := by
  intro c hc
  rw [Option.mem_def] at hc
  rw [parts, hc] at h
  exact f.extend?_of_isPart h

theorem stops_word (h : l.isMark = true) (hp : l.isProper = true) : l.Stops (.word cs) := by
  intro c hc
  have hword : isWordChar c = false := by
    cases l with
    | blank d =>
      cases hc
      simp only [isProper, Bool.or_eq_true, beq_iff_eq] at hp
      rcases hp with rfl | rfl <;> decide
    | symbol cs =>
      cases cs with
      | nil => cases hc
      | cons d ds =>
        cases hc
        simp only [isProper, isLetter, Bool.and_eq_true, Bool.not_eq_true', Bool.or_eq_false_iff]
          at hp
        simp [isWordChar, Char.isAlphanum, hp]
    | close =>
      cases hc
      decide
    | word | number => cases h
  simp [Fragment.extend?, hword]

theorem Firm.first_ne (h : l.Firm) (hp : l.isProper = true) (hc : c ∈ l.chars.head?) :
    c ≠ '-' ∧ c ≠ '=' ∧ c ≠ '>' ∧ c ≠ '&' ∧ c ≠ '<' := by
  cases h with
  | word cs =>
    have hletter := (Bool.and_eq_true_iff.1 hp).1
    have hhead : cs.head? = some c := hc
    rw [hhead] at hletter
    refine ⟨?_, ?_, ?_, ?_, ?_⟩ <;> rintro rfl <;> revert hletter <;> decide
  | number cs =>
    obtain ⟨n, hn, -⟩ := (Option.any_eq_true _ _).1 hp
    cases cs with
    | nil => cases hc
    | cons d ds =>
      cases hc
      rw [Numeral.ofChars] at hn
      split at hn
      · rename_i hdigit
        refine ⟨?_, ?_, ?_, ?_, ?_⟩ <;> rintro rfl <;> revert hdigit <;> decide
      · cases hn
  | paren =>
    cases hc
    decide

/-- A sign, or the opening bracket of a list, does not run into an operand. -/
theorem Firm.stops (h : l.Firm) (hp : l.isProper = true)
    (hcs : cs = ['-'] ∨ cs = ['&'] ∨ cs = ['<']) : l.Stops (.symbol cs) := by
  intro c hc
  obtain ⟨h₁, h₂, h₃, h₄, h₅⟩ := h.first_ne hp hc
  rcases hcs with rfl | rfl | rfl <;> simp [Fragment.extend?, joins, h₁, h₂, h₃, h₄, h₅]

end Lexeme

/-- Lexemes that do not run into each other. -/
structure Neat (ls : List Lexeme) : Prop where
  proper : ∀ l ∈ ls, l.isProper = true
  chain : ls.IsChain fun l l' => l'.Stops l.fragment

theorem neat_nil : Neat [] := ⟨forall_mem_nil _, .nil⟩

theorem neat_singleton (h : l.isProper = true) : Neat [l] :=
  ⟨fun _ hl => mem_singleton.1 hl ▸ h, .singleton l⟩

namespace Neat

theorem append (h : Neat ls) (h' : Neat ls')
    (hmeets : ∀ l ∈ ls.getLast?, ∀ l' ∈ ls'.head?, l'.Stops l.fragment) : Neat (ls ++ ls') :=
  ⟨forall_mem_append.2 ⟨h.proper, h'.proper⟩, isChain_append.2 ⟨h.chain, h'.chain, hmeets⟩⟩

theorem cons (h : Neat ls) (hl : l.isProper = true)
    (hmeets : ∀ l' ∈ ls.head?, l'.Stops l.fragment) : Neat (l :: ls) :=
  (neat_singleton hl).append h fun _ hl' => by
    cases hl'
    exact hmeets

/-- A symbol that goes on with nothing. -/
theorem symbol (h : Neat ls) (hl : (Lexeme.symbol cs).isProper = true)
    (hcs : ∀ c, joins cs c = false) : Neat (.symbol cs :: ls) :=
  h.cons hl fun _ _ => Lexeme.stops_of_joins hcs

theorem blank (h : Neat ls) (hl : (Lexeme.blank c).isProper = true) : Neat (.blank c :: ls) :=
  h.cons hl fun _ _ _ _ => rfl

theorem word (h : Neat (l :: ls)) (hcs : (Lexeme.word cs).isProper = true)
    (hl : l.isMark = true) : Neat (.word cs :: l :: ls) :=
  h.cons hcs fun l' hl' => by
    cases hl'
    exact Lexeme.stops_word hl (h.proper _ mem_cons_self)

/-- A symbol with blanks around it. -/
theorem spaced (h : Neat ls) (hcs : (Lexeme.symbol cs).isProper = true) :
    Neat (.blank ' ' :: .symbol cs :: .blank ' ' :: ls) := by
  refine Neat.blank (cons (h.blank rfl) hcs ?_) rfl
  rintro l ⟨⟩
  exact Lexeme.stops_of_parts rfl

/-- Lexemes that are kept apart. -/
theorem part (h : Neat ls) (h' : Neat (l' :: ls')) (hl' : l'.parts = true) :
    Neat (ls ++ l' :: ls') :=
  h.append h' fun l hl x hx => by
    cases hx
    exact Lexeme.stops_of_parts hl'

theorem bracket {o d : List Char} (h : Neat ls)
    (hbrackets : o = ['('] ∧ d = [')'] ∨ o = ['['] ∧ d = [']']) :
    Neat (.symbol o :: (ls ++ [.symbol d])) := by
  rcases hbrackets with ⟨rfl, rfl⟩ | ⟨rfl, rfl⟩ <;>
    exact (h.part (neat_singleton rfl) rfl).symbol rfl fun _ => rfl

/-- A sign, or the opening bracket of a template list. -/
theorem sign (h : Neat ls) (hl : l ∈ ls.head?) (hfirm : l.Firm)
    (hcs : cs = ['-'] ∨ cs = ['&'] ∨ cs = ['<']) : Neat (.symbol cs :: ls) := by
  refine h.cons (by rcases hcs with rfl | rfl | rfl <;> decide) fun l' hl' => ?_
  rw [Option.mem_def] at hl hl'
  rw [hl] at hl'
  cases hl'
  exact hfirm.stops (h.proper _ (mem_of_mem_head? hl)) hcs

end Neat

end Source

/-! ## Names -/

theorem isProper_word {text : String} (h : isWord text = true)
    (hhead : text.toList.head?.any isLetter = true) :
    (Lexeme.word text.toList).isProper = true := by
  simp only [Lexeme.isProper, hhead, Bool.true_and]
  exact h

theorem Resource.isProper_name (r : Resource) : (Lexeme.word r.name.toList).isProper = true := by
  refine isProper_word r.isWord_name ?_
  unfold name
  cases r.kind <;> simp +decide [toString]

/-- An identifier is one word. -/
theorem Ident.isProper_text (n : Ident) : (Lexeme.word n.text.toList).isProper = true := by
  refine isProper_word n.isWord_text ?_
  cases n with
  | resource r => exact (Bool.and_eq_true_iff.1 r.isProper_name).1
  | _ => simp +decide [text, toString]

theorem Selector.isProper_text (s : Selector) : (Lexeme.word s.text.toList).isProper = true := by
  cases s with
  | stage name =>
    refine isProper_word name.isWord_text ?_
    cases name <;> simp +decide [text, MemberName.text, toString]
  | _ => decide

theorem Func.isProper_name (f : Func) : (Lexeme.word f.name.toList).isProper = true := by
  cases f <;> decide

/-! ## Numbers -/

namespace Source.Numeral

variable {n : Numeral} {cs : List Char}

/-- Digits in front of a point or an exponent. -/
def isWhole : Numeral → Bool
  | zero | padded | whole => true
  | _ => false

/-- More digits lead nowhere else. -/
theorem foldlM_digits (hn : ∀ c : Char, c.isDigit = true → n.next? c = some n)
    (h : ∀ c ∈ cs, c.isDigit = true) : cs.foldlM next? n = some n := by
  induction cs with
  | nil => rfl
  | cons c cs ih =>
    obtain ⟨hc, hcs⟩ := forall_mem_cons.1 h
    rw [foldlM_cons, hn c hc]
    exact ih hcs

theorem next?_digit {c : Char} (h : c.isDigit = true) :
    next? padded c = some padded ∧ next? whole c = some whole ∧ next? fraction c = some fraction ∧
      next? power c = some power ∧ next? zero c = some padded ∧ next? exponent c = some power ∧
      next? sign c = some power := by
  simp [next?, h]

/-- Digits are the whole part of a number. -/
theorem ofChars_digits (hne : cs ≠ []) (h : ∀ c ∈ cs, c.isDigit = true) :
    ∃ n, ofChars cs = some n ∧ n.isWhole = true := by
  obtain ⟨c, cs, rfl⟩ := exists_cons_of_ne_nil hne
  obtain ⟨hc, hcs⟩ := forall_mem_cons.1 h
  rw [ofChars, if_pos hc]
  unfold first
  split
  · cases cs with
    | nil => exact ⟨zero, rfl, rfl⟩
    | cons d ds =>
      obtain ⟨hd, hds⟩ := forall_mem_cons.1 hcs
      refine ⟨padded, ?_, rfl⟩
      rw [foldlM_cons, (next?_digit hd).2.2.2.2.1]
      exact foldlM_digits (fun c hc => (next?_digit hc).1) hds
  · exact ⟨whole, foldlM_digits (fun c hc => (next?_digit hc).2.1) hcs, rfl⟩

theorem ofChars_append {ds : List Char} (h : ofChars cs = some n) :
    ofChars (cs ++ ds) = ds.foldlM next? n := by
  cases cs with
  | nil => cases h
  | cons c cs =>
    rw [ofChars] at h
    split at h
    · rename_i hc
      rw [cons_append, ofChars, if_pos hc, foldlM_append, h]
      rfl
    · cases h

theorem toDigits_head {n : Nat} (hn : 0 < n) : (Nat.toDigits 10 n).head? ≠ some '0' := by
  induction n using Nat.strongRecOn with
  | ind n ih =>
    rcases Nat.lt_or_ge n 10 with hlt | hge
    · have hdigit : ∀ d < 10, 0 < d → some (Nat.digitChar d) ≠ some '0' := by decide
      rw [Nat.toDigits_of_lt_base hlt]
      exact hdigit n hlt hn
    · have hpos : 0 < n / 10 := Nat.div_pos hge (by decide)
      rw [Nat.toDigits_of_base_le (by decide) hge, List.head?_append]
      cases hhead : (Nat.toDigits 10 (n / 10)).head? with
      | none =>
        rw [List.head?_eq_none_iff] at hhead
        exact absurd hhead Nat.toDigits_ne_nil
      | some c =>
        have := ih (n / 10) (Nat.div_lt_self hn (by decide)) hpos
        rwa [hhead] at this

/-- The digits of a whole number are a number, with or without a suffix. -/
theorem ofChars_toDigits (k : Nat) : ∃ n, ofChars (Nat.toDigits 10 k) = some n ∧
    n.isComplete = true ∧ n.next? 'i' = some suffixed ∧ n.next? 'u' = some suffixed := by
  rcases Nat.eq_zero_or_pos k with rfl | hk
  · exact ⟨zero, rfl, rfl, rfl, rfl⟩
  · obtain ⟨c, cs, hcs⟩ := exists_cons_of_ne_nil (Nat.toDigits_ne_nil (n := k) (b := 10))
    have hdigits : ∀ d ∈ Nat.toDigits 10 k, d.isDigit = true := fun d => isDigit_toDigits
    have hhead := toDigits_head hk
    rw [hcs] at hdigits hhead ⊢
    obtain ⟨hc, hrest⟩ := forall_mem_cons.1 hdigits
    have hfirst : first c = whole := by
      have hne : c ≠ '0' := by simpa using hhead
      simp [first, hne]
    refine ⟨whole, ?_, rfl, rfl, rfl⟩
    rw [ofChars, if_pos hc, hfirst]
    exact foldlM_digits (fun c hc => (next?_digit hc).2.1) hrest

theorem next?_of_isWhole (h : n.isWhole = true) :
    n.next? '.' = some fraction ∧ n.next? 'e' = some exponent := by
  cases n with
  | zero | padded | whole => exact ⟨rfl, rfl⟩
  | _ => cases h

/-- A whole part, a point and a fraction. -/
theorem ofChars_point {ds : List Char} (hne : cs ≠ []) (h : ∀ c ∈ cs, c.isDigit = true)
    (hds : ∀ c ∈ ds, c.isDigit = true) : ofChars (cs ++ '.' :: ds) = some fraction := by
  obtain ⟨n, hn, hwhole⟩ := ofChars_digits hne h
  rw [ofChars_append hn, foldlM_cons, (next?_of_isWhole hwhole).1]
  exact foldlM_digits (fun c hc => (next?_digit hc).2.2.1) hds

/-- An exponent with its sign. -/
theorem foldlM_exponent (x : Int) : x.repr.toList.foldlM next? exponent = some power := by
  have hdigits {k : Nat} (q : Numeral)
      (hq : ∀ c : Char, c.isDigit = true → q.next? c = some power) :
      (Nat.toDigits 10 k).foldlM next? q = some power := by
    obtain ⟨c, cs, hcs⟩ := exists_cons_of_ne_nil (Nat.toDigits_ne_nil (n := k) (b := 10))
    have hall : ∀ d ∈ Nat.toDigits 10 k, d.isDigit = true := fun d => isDigit_toDigits
    rw [hcs] at hall ⊢
    obtain ⟨hc, hrest⟩ := forall_mem_cons.1 hall
    rw [foldlM_cons, hq c hc]
    exact foldlM_digits (fun c hc => (next?_digit hc).2.2.2.1) hrest
  cases x with
  | ofNat k =>
    have htext : (Int.ofNat k).repr = k.repr := rfl
    rw [htext, Nat.toList_repr]
    exact hdigits exponent fun c hc => (next?_digit hc).2.2.2.2.2.1
  | negSucc k =>
    have htext : (Int.negSucc k).repr = "-" ++ (k + 1).repr := rfl
    have hminus : "-".toList = ['-'] := String.toList_ofList
    rw [htext, String.toList_append, Nat.toList_repr, hminus, singleton_append, foldlM_cons]
    exact hdigits sign fun c hc => (next?_digit hc).2.2.2.2.2.2

end Source.Numeral

namespace Binary32

open Source.Numeral

/-- The text of a magnitude is a number, with or without a suffix. -/
theorem ofChars_magnitudeText (bits : UInt32) : ∃ n, ofChars (magnitudeText bits).toList = some n ∧
    n.next? 'f' = some .suffixed := by
  have hshows := shows_magnitudeText bits
  generalize (magnitudeText bits).toList = cs at hshows
  cases hshows with
  | point h => exact ⟨.fraction, ofChars_point h.1 h.isDigit.1 h.isDigit.2, rfl⟩
  | @exponent whole x h =>
    obtain ⟨n, hn, hwhole⟩ := ofChars_digits h.1 h.isDigit.1
    refine ⟨.power, ?_, rfl⟩
    rw [ofChars_append hn, foldlM_cons, (next?_of_isWhole hwhole).2]
    exact foldlM_exponent x
  | @both whole fraction x h =>
    refine ⟨.power, ?_, rfl⟩
    rw [ofChars_append (ofChars_point h.1 h.isDigit.1 h.isDigit.2), foldlM_cons]
    exact foldlM_exponent x

end Binary32

/-! ## Literals -/

namespace Literal

variable {l : Literal}

/-- The literal begins with a minus sign. -/
def isNegative : Literal → Bool
  | int v | abstract v => decide (v < 0)
  | float bits => Binary32.isNegative bits
  | uint _ | pattern _ => false

/-- The text of a literal without its sign. -/
def digits : Literal → List Char
  | int v => Nat.toDigits 10 v.natAbs ++ ['i']
  | uint n => Nat.toDigits 10 n ++ ['u']
  | abstract v => Nat.toDigits 10 v.natAbs
  | pattern bits => '0' :: 'x' :: (hexDigits 8 bits.toNat ++ ['u'])
  | float bits => (Binary32.magnitudeText bits).toList ++ ['f']

/-- The value has a text that is a literal. -/
def isWritten : Literal → Bool
  | float bits => Binary32.isFinite bits
  | _ => true

theorem toList_repr (v : Int) :
    v.repr.toList = (if v < 0 then ['-'] else []) ++ Nat.toDigits 10 v.natAbs := by
  cases v with
  | ofNat n =>
    have htext : (Int.ofNat n).repr = n.repr := rfl
    have hnonneg : ¬ Int.ofNat n < 0 := Int.not_lt.2 (Int.natCast_nonneg n)
    rw [htext, Nat.toList_repr, if_neg hnonneg]
    rfl
  | negSucc n =>
    have htext : (Int.negSucc n).repr = "-" ++ (n + 1).repr := rfl
    have hminus : "-".toList = ['-'] := String.toList_ofList
    rw [htext, String.toList_append, Nat.toList_repr, hminus, if_pos (Int.negSucc_lt_zero n)]
    rfl

/-- A literal is its digits, behind a sign. -/
theorem toList_text (h : l.isWritten = true) :
    l.text.toList = (if l.isNegative then ['-'] else []) ++ l.digits := by
  cases l with
  | int v | abstract v => simp [text, toString, toList_repr, isNegative, digits]
  | uint n => simp [text, toString, isNegative, digits]
  | pattern bits => simp [text, isNegative, digits]
  | float bits =>
    have hfinite : Binary32.isFinite bits = true := h
    have hnan : ¬ Binary32.isNaN bits = true := by
      intro hnan
      simp only [Binary32.isNaN, Bool.and_eq_true, beq_iff_eq] at hnan
      simp [Binary32.isFinite, hnan.1] at hfinite
    have hf : "f".toList = ['f'] := String.toList_ofList
    rw [text, String.toList_append, Binary32.toList_text hnan, Binary32.unsignedText,
      if_pos hfinite, hf, List.append_assoc]
    rfl

theorem isHexDigit_hexDigits (count n : Nat) : ∀ c ∈ hexDigits count n, isHexDigit c = true := by
  have hdigit : ∀ d < 16, isHexDigit (Nat.digitChar d) = true := by decide
  induction count generalizing n with
  | zero => exact fun c hc => by cases hc
  | succ count ih =>
    intro c hc
    rcases mem_append.1 hc with hc | hc
    · exact ih _ c hc
    · obtain rfl := mem_singleton.1 hc
      exact hdigit _ (Nat.mod_lt n (by decide))

/-- **The digits of a literal are one number.** -/
theorem isProper_digits (l : Literal) : (Lexeme.number l.digits).isProper = true := by
  have hsuffix {cs : List Char} {n : Numeral} {c : Char} (hn : Numeral.ofChars cs = some n)
      (hc : n.next? c = some .suffixed) : (Lexeme.number (cs ++ [c])).isProper = true := by
    simp [Lexeme.isProper, Numeral.ofChars_append hn, hc, Numeral.isComplete]
  cases l with
  | int v =>
    obtain ⟨n, hn, -, hi, -⟩ := Numeral.ofChars_toDigits v.natAbs
    exact hsuffix hn hi
  | uint k =>
    obtain ⟨n, hn, -, -, hu⟩ := Numeral.ofChars_toDigits k
    exact hsuffix hn hu
  | abstract v =>
    obtain ⟨n, hn, hcomplete, -, -⟩ := Numeral.ofChars_toDigits v.natAbs
    simp [Lexeme.isProper, digits, hn, hcomplete]
  | pattern bits =>
    have hrun {cs : List Char} (h : ∀ c ∈ cs, isHexDigit c = true) :
        cs.foldlM Numeral.next? .hex = some .hex := by
      induction cs with
      | nil => rfl
      | cons c cs ih =>
        obtain ⟨hc, hcs⟩ := forall_mem_cons.1 h
        simp [foldlM_cons, Numeral.next?, hc, ih hcs]
    have hdigits := isHexDigit_hexDigits 8 bits.toNat
    obtain ⟨c, cs, hcs⟩ : ∃ c cs, hexDigits 8 bits.toNat = c :: cs :=
      exists_cons_of_ne_nil (by simp [hexDigits])
    rw [hcs] at hdigits
    obtain ⟨hc, hrest⟩ := forall_mem_cons.1 hdigits
    have hn : Numeral.ofChars ('0' :: 'x' :: hexDigits 8 bits.toNat) = some .hex := by
      have hbase : Numeral.ofChars ['0', 'x'] = some .base := rfl
      have happend : Numeral.ofChars (['0', 'x'] ++ c :: cs) = _ := Numeral.ofChars_append hbase
      rw [foldlM_cons, Numeral.next?, if_pos hc] at happend
      rw [hcs]
      exact happend.trans (hrun hrest)
    exact hsuffix hn rfl
  | float bits =>
    obtain ⟨n, hn, hf⟩ := Binary32.ofChars_magnitudeText bits
    exact hsuffix hn hf

end Literal

/-! ## Types -/

namespace ShaderType

/-- The name of a vector type, ahead of its template list. -/
def vector (t : ShaderType) : List Char := 'v' :: 'e' :: 'c' :: Nat.toDigits 10 t.width

/-- A type as it is written. -/
def lexemes (t : ShaderType) : List Lexeme :=
  if t.width = 1 then [.word t.scalar.name.toList]
  else [.word t.vector, .symbol ['<'], .word t.scalar.name.toList, .close]

/-- A type as tokens. -/
def tokens (t : ShaderType) : List Token :=
  if t.width = 1 then [.word t.scalar.name.toList]
  else [.word t.vector, .openList, .word t.scalar.name.toList, .closeList]

/-- The tree of a type. -/
def tree (t : ShaderType) : Tree :=
  if t.width = 1 then .name t.scalar.name.toList
  else .template t.vector (.more (.name t.scalar.name.toList) .nothing)

theorem toList_name (t : ShaderType) : t.name.toList = t.lexemes.flatMap Lexeme.chars := by
  unfold name lexemes
  split
  · simp [Lexeme.chars]
  · simp [Lexeme.chars, toString, vector]

theorem head_lexemes (t : ShaderType) : ∃ w, t.lexemes.head? = some (.word w) := by
  unfold lexemes
  split <;> exact ⟨_, rfl⟩

/-- A type between the brackets of a template list. -/
theorem neat_close (t : ShaderType) : Neat (t.lexemes ++ [.close]) := by
  have hscalar : (Lexeme.word t.scalar.name.toList).isProper = true := by
    cases t.scalar <;> decide
  have hvector : (Lexeme.word t.vector).isProper = true := by
    have hdigits : (Nat.toDigits 10 t.width).all isWordChar = true := by
      rw [all_eq_true]
      intro c hc
      simp [isWordChar, Char.isAlphanum, isDigit_toDigits hc]
    simp +decide [Lexeme.isProper, vector, hdigits]
  have hclose : Neat [.close] := neat_singleton rfl
  unfold lexemes
  split
  · exact hclose.word hscalar rfl
  · have hclosed : Neat [.close, .close] := hclose.cons rfl fun _ _ _ _ => rfl
    exact ((hclosed.word hscalar rfl).sign rfl (.word _) (.inr (.inr rfl))).word hvector rfl

theorem neat (t : ShaderType) : Neat t.lexemes :=
  ⟨fun l hl => t.neat_close.proper l (mem_append_left _ hl), t.neat_close.chain.left_of_append⟩

/-- A type leaves no candidate. -/
theorem writes (t : ShaderType) : Writes t.lexemes t.tokens := by
  unfold lexemes tokens
  split
  · exact writes_word
  · exact Writes.template writes_word

theorem derives (t : ShaderType) : Derives .callee t.tokens t.tree := by
  unfold tokens tree
  split
  · exact .name
  · exact .template (.last (Derives.name.mono (by decide)))

end ShaderType

namespace Callee

/-- What is called, as it is written. -/
def lexemes : Callee → List Lexeme
  | func f => [.word f.name.toList]
  | construct type => type.lexemes
  | bitcast type => .word "bitcast".toList :: .symbol ['<'] :: (type.lexemes ++ [.close])

/-- What is called, as tokens. -/
def tokens : Callee → List Token
  | func f => [.word f.name.toList]
  | construct type => type.tokens
  | bitcast type => .word "bitcast".toList :: .openList :: (type.tokens ++ [.closeList])

/-- The tree of what is called. -/
def tree : Callee → Tree
  | func f => .name f.name.toList
  | construct type => type.tree
  | bitcast type => .template "bitcast".toList (.more type.tree .nothing)

theorem toList_text (c : Callee) : c.text.toList = c.lexemes.flatMap Lexeme.chars := by
  cases c with
  | func f => simp [text, lexemes, Lexeme.chars]
  | construct type => exact type.toList_name
  | bitcast type => simp [text, lexemes, Lexeme.chars, toString, type.toList_name]

theorem head_lexemes (c : Callee) : ∃ w, c.lexemes.head? = some (.word w) := by
  cases c with
  | func | bitcast => exact ⟨_, rfl⟩
  | construct type => exact type.head_lexemes

theorem neat (c : Callee) : Neat c.lexemes := by
  cases c with
  | func f => exact neat_singleton f.isProper_name
  | construct type => exact type.neat
  | bitcast type =>
    obtain ⟨w, hw⟩ := type.head_lexemes
    have hhead : Lexeme.word w ∈ (type.lexemes ++ [Lexeme.close]).head? := by simp [hw]
    exact (type.neat_close.sign hhead (.word w) (.inr (.inr rfl))).word (by decide) rfl

/-- What is called leaves no candidate. -/
theorem writes (c : Callee) : Writes c.lexemes c.tokens := by
  cases c with
  | func f => exact writes_word
  | construct type => exact type.writes
  | bitcast type => exact Writes.template type.writes

theorem derives (c : Callee) : Derives .callee c.tokens c.tree := by
  cases c with
  | func f => exact .name
  | construct type => exact type.derives
  | bitcast type => exact .template (.last (type.derives.mono (by decide)))

end Callee

end WgslKernel
