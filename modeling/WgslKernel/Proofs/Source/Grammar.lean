import WgslKernel.Proofs.Source.Lexing
import WgslKernel.Shader.Expr

/-!
# The grammar of expressions

`Derives` are the rules of the shading language, stricter than a table of precedences: operands of
shifts and of bitwise operators are unary expressions, and comparisons do not associate.  No text
has two trees, because one reader finds them all.
-/

namespace WgslKernel

open List

/-- The characters of an operator. -/
def Operator.chars : Operator → List Char
  | add => ['+']
  | sub => ['-']
  | mul => ['*']
  | div => ['/']
  | rem => ['%']
  | bitAnd => ['&']
  | bitOr => ['|']
  | bitXor => ['^']
  | shl => ['<', '<']
  | shr => ['>', '>']
  | lt => ['<']
  | le => ['<', '=']
  | gt => ['>']
  | ge => ['>', '=']
  | eq => ['=', '=']
  | ne => ['!', '=']
  | and => ['&', '&']
  | or => ['|', '|']

theorem Operator.toList_symbol (op : Operator) : op.symbol.toList = op.chars := by
  cases op <;> exact String.toList_ofList

namespace Source

/-! ## Trees and rules -/

/-- What an expression is made of.  Parentheses leave no trace but the shape of the tree. -/
inductive Tree where
  | name (cs : List Char)
  | literal (cs : List Char)
  /-- A name with a template list. -/
  | template (name : List Char) (args : Tree)
  | call (callee args : Tree)
  | unary (op : Char) (t : Tree)
  | binary (op : Operator) (lhs rhs : Tree)
  | member (t : Tree) (name : List Char)
  | index (t i : Tree)
  /-- Lists of arguments. -/
  | nothing
  | more (first rest : Tree)
  deriving DecidableEq, Repr

/-- The categories of the grammar, tightest first. -/
inductive Category where
  | callee
  | primary
  | singular
  | unary
  | product
  | sum
  | shift
  | relation
  | conjunction
  | disjunction
  | bitAnd
  | bitXor
  | bitOr
  | expression
  /-- Expressions with commas between them. -/
  | list
  deriving DecidableEq, Repr

/-- The categories that take in all of a category. -/
def Category.wider : Category → List Category
  | callee => [primary]
  | primary => [singular]
  | singular => [unary]
  | unary => [product, bitAnd, bitXor, bitOr]
  | product => [sum]
  | sum => [shift]
  | shift => [relation]
  | relation => [conjunction, disjunction]
  | conjunction | disjunction | bitAnd | bitXor | bitOr => [expression]
  | expression | list => []

end Source

namespace Operator

open Source

/-- The category of what an operator makes, and those of its operands. -/
def category : Operator → Category
  | mul | div | rem => .product
  | add | sub => .sum
  | shl | shr => .shift
  | lt | le | gt | ge | eq | ne => .relation
  | and => .conjunction
  | or => .disjunction
  | bitAnd => .bitAnd
  | bitXor => .bitXor
  | bitOr => .bitOr

/-- What may stand left of an operator. -/
def left (op : Operator) : Category :=
  match op.category with
  | .shift => .unary
  | .relation => .shift
  | c => c

/-- What may stand right of an operator. -/
def right (op : Operator) : Category :=
  match op.category with
  | .sum => .product
  | .relation => .shift
  | .conjunction | .disjunction => .relation
  | _ => .unary

/-- An operator as a token. -/
def token (op : Operator) : Token := .symbol op.chars

end Operator

namespace Source

/-- The operators ahead of their operand. -/
def prefixes : List Char := ['-', '!', '~', '*', '&']

/-- **The rules for expressions.** -/
inductive Derives : Category → List Token → Tree → Prop where
  | wider {c c' : Category} {ts : List Token} {t : Tree} (h : Derives c ts t) (hc : c' ∈ c.wider) :
    Derives c' ts t
  | name {w : List Char} : Derives .callee [.word w] (.name w)
  | template {w : List Char} {ts : List Token} {t : Tree} (h : Derives .list ts t) :
    Derives .callee (.word w :: .openList :: (ts ++ [.closeList])) (.template w t)
  | literal {cs : List Char} : Derives .primary [.number cs] (.literal cs)
  | paren {ts : List Token} {t : Tree} (h : Derives .expression ts t) :
    Derives .primary (.symbol ['('] :: (ts ++ [.symbol [')']])) t
  | callNothing {ts : List Token} {t : Tree} (h : Derives .callee ts t) :
    Derives .primary (ts ++ [.symbol ['('], .symbol [')']]) (.call t .nothing)
  | call {ts us : List Token} {t u : Tree} (h : Derives .callee ts t) (h' : Derives .list us u) :
    Derives .primary (ts ++ .symbol ['('] :: (us ++ [.symbol [')']])) (.call t u)
  | member {w : List Char} {ts : List Token} {t : Tree} (h : Derives .singular ts t) :
    Derives .singular (ts ++ [.symbol ['.'], .word w]) (.member t w)
  | index {ts us : List Token} {t u : Tree} (h : Derives .singular ts t)
    (h' : Derives .expression us u) :
    Derives .singular (ts ++ .symbol ['['] :: (us ++ [.symbol [']']])) (.index t u)
  | unary {op : Char} {ts : List Token} {t : Tree} (hop : op ∈ prefixes) (h : Derives .unary ts t) :
    Derives .unary (.symbol [op] :: ts) (.unary op t)
  | binary (op : Operator) {ts us : List Token} {t u : Tree} (h : Derives op.left ts t)
    (h' : Derives op.right us u) : Derives op.category (ts ++ op.token :: us) (.binary op t u)
  | last {ts : List Token} {t : Tree} (h : Derives .expression ts t) :
    Derives .list ts (.more t .nothing)
  | trailing {ts : List Token} {t : Tree} (h : Derives .expression ts t) :
    Derives .list (ts ++ [.symbol [',']]) (.more t .nothing)
  | more {ts us : List Token} {t u : Tree} (h : Derives .expression ts t)
    (h' : Derives .list us u) : Derives .list (ts ++ .symbol [','] :: us) (.more t u)

/-- The categories that a number of steps leads to. -/
def Category.reach : Nat → Category → List Category
  | 0, c => [c]
  | n + 1, c => c :: c.wider.flatMap (reach n)

/-- The category takes in all of another. -/
def Category.takes (c c' : Category) : Bool := c ∈ c'.reach 9

/-- What is tight enough fits wider categories. -/
theorem Derives.mono {c c' : Category} {ts : List Token} {t : Tree} (h : Derives c' ts t)
    (hc : c.takes c' = true) : Derives c ts t := by
  have hreach {n : Nat} {c' : Category} (h : Derives c' ts t) (hc : c ∈ c'.reach n) :
      Derives c ts t := by
    induction n generalizing c' with
    | zero => exact mem_singleton.1 hc ▸ h
    | succ n ih =>
      rcases mem_cons.1 hc with rfl | hc
      · exact h
      · obtain ⟨d, hd, hc⟩ := mem_flatMap.1 hc
        exact ih (h.wider hd) hc
  exact hreach h (of_decide_eq_true hc)

/-- A mark that ends a statement or a part of it. -/
def Token.isStop : Token → Bool
  | .symbol [c] => ['=', ';', ':', '\x7b', '\x7d'].contains c
  | _ => false

/-- **No expression holds a mark that ends one**, so where it ends is plain. -/
theorem Derives.isStop {c : Category} {ts : List Token} {t : Tree} (h : Derives c ts t) :
    ∀ x ∈ ts, x.isStop = false := by
  induction h with
  | wider _ _ ih | last _ ih => exact ih
  | name | literal => exact forall_mem_singleton.2 rfl
  | unary hop _ ih =>
    refine forall_mem_cons.2 ⟨?_, ih⟩
    simp only [prefixes, mem_cons, not_mem_nil, or_false] at hop
    rcases hop with rfl | rfl | rfl | rfl | rfl <;> rfl
  | binary op _ _ ih ih' =>
    have hop : op.token.isStop = false := by cases op <;> rfl
    exact forall_mem_append.2 ⟨ih, forall_mem_cons.2 ⟨hop, ih'⟩⟩
  | template _ ih =>
    simp only [forall_mem_append, forall_mem_cons]
    exact ⟨rfl, rfl, ih, rfl, forall_mem_nil _⟩
  | paren _ ih =>
    simp only [forall_mem_append, forall_mem_cons]
    exact ⟨rfl, ih, rfl, forall_mem_nil _⟩
  | callNothing _ ih | member _ ih =>
    simp only [forall_mem_append, forall_mem_cons]
    exact ⟨ih, rfl, rfl, forall_mem_nil _⟩
  | trailing _ ih => exact forall_mem_append.2 ⟨ih, forall_mem_singleton.2 rfl⟩
  | call _ _ ih ih' | index _ _ ih ih' =>
    simp only [forall_mem_append, forall_mem_cons]
    exact ⟨ih, rfl, ih', rfl, forall_mem_nil _⟩
  | more _ _ ih ih' =>
    exact forall_mem_append.2 ⟨ih, forall_mem_cons.2 ⟨rfl, ih'⟩⟩

/-! ## A reader -/

/-- How tightly an operator binds. -/
def Category.level : Category → Nat
  | product => 9
  | sum => 8
  | shift => 7
  | relation => 6
  | bitAnd => 5
  | bitXor => 4
  | bitOr => 3
  | conjunction => 2
  | disjunction => 1
  | expression | list => 0
  | unary | singular | primary | callee => 10

/-- The operator that a token is. -/
def Token.operator? : Token → Option Operator
  | .symbol ['+'] => some .add
  | .symbol ['-'] => some .sub
  | .symbol ['*'] => some .mul
  | .symbol ['/'] => some .div
  | .symbol ['%'] => some .rem
  | .symbol ['&'] => some .bitAnd
  | .symbol ['|'] => some .bitOr
  | .symbol ['^'] => some .bitXor
  | .symbol ['<', '<'] => some .shl
  | .symbol ['>', '>'] => some .shr
  | .symbol ['<'] => some .lt
  | .symbol ['<', '='] => some .le
  | .symbol ['>'] => some .gt
  | .symbol ['>', '='] => some .ge
  | .symbol ['=', '='] => some .eq
  | .symbol ['!', '='] => some .ne
  | .symbol ['&', '&'] => some .and
  | .symbol ['|', '|'] => some .or
  | _ => none

/-- What is read from `ts`, when it leaves no more than `ts`. -/
def within (ts : List Token) (r : Option (Tree × List Token)) :
    Option {r : Tree × List Token // r.2.length ≤ ts.length} :=
  r.bind fun r => if h : r.2.length ≤ ts.length then some ⟨r, h⟩ else none

/-- Take a token off. -/
def skip (x : Token) : (ts : List Token) → Option {us : List Token // us.length < ts.length}
  | [] => none
  | y :: ts => if y = x then some ⟨ts, Nat.lt_succ_self _⟩ else none

-- Fewer tokens are left from call to call, except on the way from a list to the operand it begins
-- with and from a call to what stands behind it; the second component counts these.
mutual

/-- Read an expression of operators that bind at a level or tighter. -/
def readExpr (level : Nat) (ts : List Token) : Option (Tree × List Token) := do
  let ⟨r, _⟩ ← within ts (readUnary ts)
  climb level r.1 r.2
termination_by (ts.length, 3)
decreasing_by all_goals grind

/-- Go on behind the operand `t`. -/
def climb (level : Nat) (t : Tree) (ts : List Token) : Option (Tree × List Token) :=
  match ts with
  | [] => some (t, [])
  | x :: rest =>
    match x.operator? with
    | some op =>
      if level ≤ op.category.level then do
        let ⟨r, _⟩ ← within rest (readExpr (op.category.level + 1) rest)
        climb level (.binary op t r.1) r.2
      else some (t, x :: rest)
    | none => some (t, x :: rest)
termination_by (ts.length, 1)
decreasing_by all_goals grind

/-- Reads a unary expression. -/
def readUnary (ts : List Token) : Option (Tree × List Token) :=
  match ts with
  | .symbol ['('] :: rest => do
    let ⟨r, _⟩ ← within rest (readExpr 0 rest)
    let ⟨rest, _⟩ ← skip (.symbol [')']) r.2
    readPostfix r.1 rest
  | .symbol [c] :: rest =>
    if c ∈ prefixes then do
      let r ← readUnary rest
      some (.unary c r.1, r.2)
    else none
  | .number cs :: rest => readPostfix (.literal cs) rest
  | .word w :: rest => do
    let ⟨r, _⟩ ← within rest (readCallee w rest)
    readCall r.1 r.2
  | _ => none
termination_by (ts.length, 2)
decreasing_by all_goals grind

/-- Reads what may be called, behind its name. -/
def readCallee (w : List Char) (ts : List Token) : Option (Tree × List Token) :=
  match ts with
  | .openList :: rest => do
    let r ← readList rest
    let rest ← skip .closeList r.2
    some (.template w r.1, rest.1)
  | ts => some (.name w, ts)
termination_by (ts.length, 0)
decreasing_by all_goals grind

/-- Reads the arguments of a call. -/
def readCall (f : Tree) (ts : List Token) : Option (Tree × List Token) :=
  match ts with
  | .symbol ['('] :: .symbol [')'] :: rest => readPostfix (.call f .nothing) rest
  | .symbol ['('] :: rest => do
    let ⟨r, _⟩ ← within rest (readList rest)
    let ⟨rest, _⟩ ← skip (.symbol [')']) r.2
    readPostfix (.call f r.1) rest
  | ts => readPostfix f ts
termination_by (ts.length, 1)
decreasing_by all_goals grind

/-- Reads members and indices. -/
def readPostfix (t : Tree) (ts : List Token) : Option (Tree × List Token) :=
  match ts with
  | .symbol ['.'] :: .word w :: rest => readPostfix (.member t w) rest
  | .symbol ['['] :: rest => do
    let ⟨r, _⟩ ← within rest (readExpr 0 rest)
    let ⟨rest, _⟩ ← skip (.symbol [']']) r.2
    readPostfix (.index t r.1) rest
  | ts => some (t, ts)
termination_by (ts.length, 0)
decreasing_by all_goals grind

/-- Reads arguments up to the end of the list. -/
def readList (ts : List Token) : Option (Tree × List Token) := do
  let ⟨r, _⟩ ← within ts (readExpr 0 ts)
  match skip (.symbol [',']) r.2 with
  | some ⟨rest, _⟩ =>
    match rest.head? with
    | some (.symbol [')']) | some .closeList => some (.more r.1 .nothing, rest)
    | _ => do
      let q ← readList rest
      some (.more r.1 q.1, q.2)
  | none => some (.more r.1 .nothing, r.2)
termination_by (ts.length, 4)
decreasing_by all_goals grind

end

/-! ## Every derivation is found -/

variable {c : Category} {ts us rest : List Token} {t t' u : Tree} {x : Token} {m n : Nat}

/-- A token that makes more of a name or an operand ahead of it. -/
def Token.continues : Token → Bool
  | .openList | .symbol ['('] | .symbol ['.'] | .symbol ['['] => true
  | _ => false

/-- An operand ends ahead of these tokens. -/
def Stops (ts : List Token) : Prop := ∀ x ∈ ts.head?, x.continues = false

/-- No operator ahead of these tokens binds tighter than a level. -/
def Binds (level : Nat) (ts : List Token) : Prop :=
  ∀ op, ts.head?.bind Token.operator? = some op → op.category.level ≤ level

/-- What the reader does with tokens that derive a tree. -/
def Spec (c : Category) (ts : List Token) (t : Tree) : Prop :=
  match c with
  | .callee => ∀ rest, (∀ x ∈ rest.head?, x ≠ .openList) → readUnary (ts ++ rest) = readCall t rest
  | .primary | .singular => ∀ rest, (∀ x ∈ rest.head?, x ≠ .openList ∧ x ≠ .symbol ['(']) →
    readUnary (ts ++ rest) = readPostfix t rest
  | .unary => ∀ rest, Stops rest → readUnary (ts ++ rest) = some (t, rest)
  | .list => ∀ x rest, x = .symbol [')'] ∨ x = .closeList →
    readList (ts ++ x :: rest) = some (t, x :: rest)
  | c => ∀ m ≤ c.level, ∀ rest, Stops rest → Binds c.level rest →
    readExpr m (ts ++ rest) = climb m t rest

theorem stops_cons (h : x.continues = false) : Stops (x :: rest) := fun y hy => by
  cases hy
  exact h

theorem Operator.operator?_token (op : Operator) : op.token.operator? = some op := by
  cases op <;> rfl

theorem Operator.continues_token (op : Operator) : op.token.continues = false := by
  cases op <;> rfl

@[simp]
theorem skip_cons : skip x (x :: rest) = some ⟨rest, Nat.lt_succ_self _⟩ := if_pos rfl

@[simp]
theorem within_some (h : rest.length ≤ ts.length) :
    within ts (some (t, rest)) = some ⟨(t, rest), h⟩ :=
  dif_pos h

theorem climb_of_none (h : rest.head?.bind Token.operator? = none) :
    climb m t rest = some (t, rest) := by
  cases rest with
  | nil => rw [climb]
  | cons x rest => simp only [climb, show x.operator? = none from h]

theorem climb_of_lt {op : Operator} (h : rest.head?.bind Token.operator? = some op)
    (hlt : op.category.level < m) : climb m t rest = some (t, rest) := by
  cases rest with
  | nil => rw [climb]
  | cons x rest =>
    simp only [climb, show x.operator? = some op from h]
    exact if_neg (Nat.not_le.2 hlt)

/-- The reader stops where nothing binds tightly enough. -/
theorem climb_of_binds (h : Binds n rest) (hn : n < m) : climb m t rest = some (t, rest) := by
  cases hop : rest.head?.bind Token.operator? with
  | none => exact climb_of_none hop
  | some op => exact climb_of_lt hop (Nat.lt_of_le_of_lt (h op hop) hn)

/-- A tree ends where nothing goes on. -/
theorem readPostfix_of_stops (h : Stops rest) : readPostfix t rest = some (t, rest) := by
  rw [readPostfix.eq_def]
  split
  · cases h _ rfl
  · cases h _ rfl
  · rfl

theorem readCall_of_ne (h : ∀ x ∈ rest.head?, x ≠ .symbol ['(']) :
    readCall t rest = readPostfix t rest := by
  rw [readCall.eq_def]
  split
  · exact absurd rfl (h _ rfl)
  · exact absurd rfl (h _ rfl)
  · rfl

/-- Tokens that derive a tree do not begin with the end of a list. -/
theorem Derives.head (h : Derives c ts t) :
    ∃ x us, ts = x :: us ∧ x ≠ .symbol [')'] ∧ x ≠ .closeList := by
  induction h with
  | wider _ _ ih => exact ih
  | name | template | literal | paren => exact ⟨_, _, rfl, by simp, by simp⟩
  | unary hop _ _ =>
    refine ⟨_, _, rfl, ?_, by simp⟩
    rintro ⟨⟩
    simp [prefixes] at hop
  | last _ ih => exact ih
  | callNothing _ ih | member _ ih | trailing _ ih | call _ _ ih _ | index _ _ ih _
  | binary _ _ _ ih _ | more _ _ ih _ =>
    obtain ⟨x, us, rfl, hx⟩ := ih
    exact ⟨x, _, cons_append, hx⟩

/-- The levels of operators and operands. -/
def Category.isLevel : Category → Bool
  | callee | primary | singular | list => false
  | _ => true

/-- Where operators of a level or tighter are read, what derives a tree is read as its operand. -/
theorem Spec.level (h : Spec c ts t) (hc : c.isLevel = true) (hn : n ≤ c.level) (hm : m ≤ n)
    (hstops : Stops rest) (hbinds : Binds n rest) :
    Source.readExpr m (ts ++ rest) = climb m t rest := by
  have hbinds' : Binds c.level rest := fun op hop => (hbinds op hop).trans hn
  cases c with
  | callee | primary | singular | list => cases hc
  | unary =>
    rw [readExpr, h rest hstops]
    simp
  | _ => exact h m (hm.trans hn) rest hstops hbinds'

/-- An expression between brackets. -/
theorem Spec.readExpr (h : Spec .expression ts t) (hx : x.continues = false)
    (hop : x.operator? = none) : Source.readExpr 0 (ts ++ x :: rest) = some (t, x :: rest) := by
  have hbinds : Binds 0 (x :: rest) := fun op h => by simp [hop] at h
  rw [h 0 (Nat.le_refl 0) _ (stops_cons hx) hbinds, climb_of_none (by simp [hop])]

theorem Operator.left_isLevel (op : Operator) : op.left.isLevel = true ∧
    op.category.level ≤ op.left.level := by
  cases op <;> decide

theorem Operator.right_isLevel (op : Operator) : op.right.isLevel = true ∧
    op.category.level + 1 ≤ op.right.level := by
  cases op <;> decide

theorem spec_of_level (hc : c.isLevel = true) (hne : c ≠ .unary)
    (h : ∀ m ≤ c.level, ∀ rest, Stops rest → Binds c.level rest →
      readExpr m (ts ++ rest) = climb m t rest) : Spec c ts t := by
  cases c with
  | callee | primary | singular | list => cases hc
  | unary => exact absurd rfl hne
  | _ => exact h

theorem Category.wider_isLevel {c' : Category} (h : c' ∈ c.wider) (hc : c.isLevel = true) :
    c'.isLevel = true ∧ c' ≠ .unary ∧ c'.level ≤ c.level := by
  cases c <;> cases c' <;> revert h hc <;> decide

theorem Operator.category_isLevel (op : Operator) :
    op.category.isLevel = true ∧ op.category ≠ .unary := by
  cases op <;> decide

/-- **The reader finds every tree that the rules give.** -/
theorem Derives.spec (h : Derives c ts t) : Spec c ts t := by
  induction h with
  | @wider c c' ts t _ hc ih =>
    cases c with
    | callee =>
      obtain rfl := mem_singleton.1 hc
      intro rest hrest
      rw [ih rest fun x hx => (hrest x hx).1, readCall_of_ne fun x hx => (hrest x hx).2]
    | primary =>
      obtain rfl := mem_singleton.1 hc
      exact ih
    | singular =>
      obtain rfl := mem_singleton.1 hc
      intro rest hrest
      rw [ih rest fun x hx => ?_, readPostfix_of_stops hrest]
      have hstop := hrest x hx
      constructor <;> rintro rfl <;> cases hstop
    | list => cases hc
    | _ =>
      obtain ⟨hlevel, hne, hle⟩ := Category.wider_isLevel hc rfl
      exact spec_of_level hlevel hne fun m hm rest hstops hbinds =>
        ih.level rfl hle hm hstops hbinds
  | @name w =>
    intro rest hrest
    have hcallee : readCallee w rest = some (.name w, rest) := by
      rw [readCallee.eq_def]
      split
      · exact absurd rfl (hrest _ rfl)
      · rfl
    rw [singleton_append, readUnary, hcallee]
    simp
  | template _ ih =>
    intro rest hrest
    simp only [cons_append, List.append_assoc, nil_append]
    rw [readUnary, readCallee, ih _ _ (.inr rfl)]
    simp only [Option.bind_eq_bind, Option.bind_some, skip_cons]
    rw [within_some (by simp; omega)]
    rfl
  | literal =>
    intro rest hrest
    rw [singleton_append, readUnary]
  | paren _ ih =>
    intro rest hrest
    simp only [cons_append, List.append_assoc, nil_append]
    rw [readUnary, ih.readExpr rfl rfl]
    simp
  | callNothing _ ih =>
    intro rest hrest
    rw [List.append_assoc, ih _ (by simp)]
    exact readCall.eq_1 ..
  | call _ hlist ih ih' =>
    intro rest hrest
    simp only [List.append_assoc, cons_append, nil_append]
    rw [ih _ (by simp)]
    obtain ⟨y, ys, rfl, hy, -⟩ := hlist.head
    rw [readCall]
    · rw [ih' _ _ (.inl rfl), within_some (by simp; omega)]
      simp
    · simpa using hy
  | member _ ih =>
    intro rest hrest
    rw [List.append_assoc, ih _ (by simp)]
    exact readPostfix.eq_1 ..
  | index _ _ ih ih' =>
    intro rest hrest
    simp only [List.append_assoc, cons_append, nil_append]
    rw [ih _ (by simp), readPostfix, ih'.readExpr rfl rfl]
    simp
  | unary hop _ ih =>
    intro rest hrest
    have hne : ∀ op ∈ prefixes, op ≠ '(' := by
      simp [prefixes]
    rw [cons_append, readUnary, if_pos hop, ih rest hrest]
    · rfl
    · simpa using hne _ hop
  | @binary op ts us t u _ _ ih ih' =>
    obtain ⟨hlevel, hne⟩ := Operator.category_isLevel op
    obtain ⟨hleft, hleft'⟩ := Operator.left_isLevel op
    obtain ⟨hright, hright'⟩ := Operator.right_isLevel op
    refine spec_of_level hlevel hne fun m hm rest hstops hbinds => ?_
    have hop : (op.token :: (us ++ rest)).head?.bind Token.operator? = some op := by
      simp [Operator.operator?_token]
    have hbinds' : Binds op.category.level (op.token :: (us ++ rest)) := fun op' hop' => by
      rw [hop] at hop'
      cases hop'
      exact Nat.le_refl _
    have hoperand : readExpr (op.category.level + 1) (us ++ rest) = some (u, rest) := by
      rw [ih'.level hright hright' (Nat.le_refl _) hstops fun op' h =>
        (hbinds op' h).trans (Nat.le_succ _)]
      exact climb_of_binds hbinds (Nat.lt_succ_self _)
    rw [List.append_assoc, cons_append,
      ih.level hleft hleft' hm (stops_cons (Operator.continues_token op)) hbinds', climb,
      Operator.operator?_token]
    simp [hm, hoperand]
  | last _ ih =>
    intro x rest hx
    rw [readList, ih.readExpr (by rcases hx with rfl | rfl <;> rfl)
      (by rcases hx with rfl | rfl <;> rfl), within_some (by simp)]
    rcases hx with rfl | rfl <;> rfl
  | trailing _ ih =>
    intro x rest hx
    rw [List.append_assoc, readList]
    simp only [cons_append, nil_append]
    rw [ih.readExpr rfl rfl, within_some (by simp)]
    rcases hx with rfl | rfl <;> rfl
  | more _ hlist ih ih' =>
    intro x rest hx
    obtain ⟨y, ys, rfl, hy, hy'⟩ := hlist.head
    rw [List.append_assoc, readList]
    simp only [cons_append]
    rw [ih.readExpr rfl rfl, within_some (by simp)]
    simp only [Option.bind_eq_bind, Option.bind_some, skip_cons, List.head?_cons]
    have hrest := ih' x rest hx
    rw [cons_append] at hrest
    split
    · rename_i heq
      exact absurd (Option.some.inj heq) hy
    · rename_i heq
      exact absurd (Option.some.inj heq) hy'
    · rw [hrest]
      rfl

/-- **No tokens have two trees.** -/
theorem Derives.unique (h : Derives .expression ts t) (h' : Derives .expression ts t') :
    t = t' := by
  have hread {t : Tree} (h : Derives .expression ts t) : readExpr 0 ts = some (t, []) := by
    have hbinds : Binds 0 [] := fun op hop => by cases hop
    have hstops : Stops [] := fun x hx => by cases hx
    have hspec := h.spec 0 (Nat.le_refl 0) [] hstops hbinds
    rwa [append_nil, climb_of_none rfl] at hspec
  have heq := (hread h).symm.trans (hread h')
  simpa using heq

end Source

end WgslKernel
