import Mathlib.Algebra.Order.Ring.Int
import WgslKernel.Resource

/-!
# Runs and how they end

What the interpreters of kernels and shaders share: how a run ends, how control leaves a sequence of
statements, and how loops are repeated.  `Simulates` compares two runs: whatever the first one does,
short of leaving the defined behaviour, the second one does too.
-/

namespace WgslKernel

/-! ## Runs -/

/-- How a run ends. -/
inductive Run (α : Type) where
  | done (a : α)
  /-- A loop was cut off. -/
  | timeout
  /-- A division by zero, or a word outside its buffer. -/
  | fault
  /-- The program has no meaning: a name is not declared, or a value is of the wrong type. -/
  | stuck
  deriving DecidableEq, Repr

namespace Run

variable {α β γ : Type}

/-- One run after another. -/
def bind : Run α → (α → Run β) → Run β
  | done a, f => f a
  | timeout, _ => timeout
  | fault, _ => fault
  | stuck, _ => stuck

/-- Runs in sequence. -/
instance : Monad Run where
  pure := done
  bind := bind

@[simp] theorem done_bind (a : α) (f : α → Run β) : (done a >>= f) = f a := rfl

@[simp] theorem timeout_bind (f : α → Run β) : (timeout >>= f) = timeout := rfl

@[simp] theorem fault_bind (f : α → Run β) : (fault >>= f) = fault := rfl

@[simp] theorem stuck_bind (f : α → Run β) : (stuck >>= f) = stuck := rfl

theorem bind_assoc (x : Run α) (f : α → Run β) (g : β → Run γ) :
    (x >>= f >>= g) = x >>= fun a => f a >>= g := by
  cases x <;> rfl

theorem bind_eq_done {x : Run α} {f : α → Run β} {b : β} :
    x >>= f = done b ↔ ∃ a, x = done a ∧ f a = done b := by
  cases x <;> simp

/-- A value that may be missing, in which case the program has no meaning. -/
def ofOption : Option α → Run α
  | some a => done a
  | none => stuck

@[simp] theorem ofOption_some (a : α) : ofOption (some a) = done a := rfl

end Run

/-! ## Control flow -/

/-- How control leaves a sequence of statements. -/
inductive Flow where
  /-- At its end. -/
  | next
  /-- Out of the innermost loop. -/
  | exit
  /-- To the next turn of the innermost loop. -/
  | again
  deriving DecidableEq, Repr

namespace Run

variable {σ : Type}

/-- Go on with `k`, unless control has left the sequence. -/
def andThen (x : Run (Flow × σ)) (k : σ → Run (Flow × σ)) : Run (Flow × σ) :=
  x >>= fun
    | (.next, s) => k s
    | (flow, s) => done (flow, s)

@[simp] theorem andThen_next (s : σ) (k : σ → Run (Flow × σ)) :
    (done (.next, s)).andThen k = k s := rfl

theorem andThen_assoc (x : Run (Flow × σ)) (k l : σ → Run (Flow × σ)) :
    (x.andThen k).andThen l = x.andThen fun s => (k s).andThen l := by
  rcases x with ⟨⟨⟩ | ⟨⟩ | ⟨⟩, s⟩ | _ | _ | _ <;> rfl

/-- Take turns as long as they ask for another one, at most `fuel` of them. -/
def repeats (turn : σ → Run (Bool × σ)) : Nat → σ → Run σ
  | 0, _ => timeout
  | fuel + 1, s =>
    turn s >>= fun
      | (true, s) => repeats turn fuel s
      | (false, s) => done s

end Run

/-! ## Comparing runs -/

/-- The second run follows the first one, to a related result or a time-out.  Where the first one
faults nothing is asked; it never gets stuck. -/
def Simulates {α β : Type} (R : α → β → Prop) : Run α → Run β → Prop
  | .done a, .done b => R a b
  | .timeout, .timeout => True
  | .fault, _ => True
  | _, _ => False

namespace Simulates

variable {α β γ δ σ τ : Type} {R : α → β → Prop} {x : Run α} {y : Run β}

theorem mono {S : α → β → Prop} (h : Simulates R x y) (hRS : ∀ a b, R a b → S a b) :
    Simulates S x y := by
  cases x <;> cases y <;> first | exact hRS _ _ h | exact h

/-- Sequences of runs that follow each other. -/
theorem bind {S : γ → δ → Prop} {f : α → Run γ} {g : β → Run δ} (h : Simulates R x y)
    (hfg : ∀ a b, R a b → Simulates S (f a) (g b)) : Simulates S (x >>= f) (y >>= g) := by
  cases x with
  | done a =>
    cases y with
    | done b => exact hfg a b h
    | timeout | fault | stuck => exact h.elim
  | timeout =>
    cases y with
    | timeout => trivial
    | done | fault | stuck => exact h.elim
  | fault => trivial
  | stuck => exact h.elim

/-- The first run goes on to what the second has come to already. -/
theorem map_left {S : γ → β → Prop} {f : α → γ} (h : Simulates R x y)
    (hRS : ∀ a b, R a b → S (f a) b) : Simulates S (x >>= fun a => .done (f a)) y := by
  cases x <;> cases y <;> first | exact hRS _ _ h | exact h

/-- The second run goes on to what the first has come to already. -/
theorem map_right {S : α → δ → Prop} {g : β → δ} (h : Simulates R x y)
    (hRS : ∀ a b, R a b → S a (g b)) : Simulates S x (y >>= fun b => .done (g b)) := by
  cases x <;> cases y <;> first | exact hRS _ _ h | exact h

/-- A run is the run it simulates, as long as that one does not fault. -/
theorem eq_of_ne_fault {x y : Run α} (h : Simulates Eq x y) :
    x ≠ .stuck ∧ (x ≠ .fault → y = x) := by
  cases x with
  | done a =>
    cases y with
    | done b => exact ⟨by simp, fun _ => by rw [show a = b from h]⟩
    | timeout | fault | stuck => exact h.elim
  | timeout =>
    cases y with
    | timeout => exact ⟨by simp, fun _ => rfl⟩
    | done | fault | stuck => exact h.elim
  | fault => exact ⟨by simp, fun hne => absurd rfl hne⟩
  | stuck => exact h.elim

/-- Two sequences: what follows is compared only where control goes on. -/
theorem andThen {P : Flow × σ → Flow × τ → Prop} {x : Run (Flow × σ)}
    {y : Run (Flow × τ)} {k : σ → Run (Flow × σ)} {l : τ → Run (Flow × τ)}
    (h : Simulates (fun a b => a.1 = b.1 ∧ (a.1 = .next → Simulates P (k a.2) (l b.2)) ∧
      (a.1 ≠ .next → P a b)) x y) :
    Simulates P (x.andThen k) (y.andThen l) := by
  refine h.bind ?_
  rintro ⟨flow, s⟩ ⟨flow', t⟩ ⟨heq, hnext, hleave⟩
  cases heq
  cases flow with
  | next => exact hnext rfl
  | exit => exact hleave (by simp)
  | again => exact hleave (by simp)

/-- Loops in step: if one turn follows the other then so does the loop. -/
theorem repeats {R S : σ → τ → Prop} {turn : σ → Run (Bool × σ)}
    {turn' : τ → Run (Bool × τ)}
    (hturn : ∀ s t, R s t → Simulates (fun a b => a.1 = b.1 ∧
      if a.1 then R a.2 b.2 else S a.2 b.2) (turn s) (turn' t))
    (fuel : Nat) {s : σ} {t : τ} (h : R s t) :
    Simulates S (Run.repeats turn fuel s) (Run.repeats turn' fuel t) := by
  induction fuel generalizing s t with
  | zero => trivial
  | succ fuel ih =>
    refine (hturn s t h).bind ?_
    rintro ⟨more, s⟩ ⟨more', t⟩ ⟨heq, hst⟩
    cases heq
    cases more with
    | true => exact ih (by simpa using hst)
    | false =>
      have hS : S s t := by simpa using hst
      exact hS

end Simulates

/-- The words of every buffer. -/
abbrev Memory := Resource → List Int32

namespace Memory

/-- The word of a buffer at an index, which has to be a non-negative 32-bit integer. -/
@[irreducible] def read (mem : Memory) (r : Resource) (i : Int) : Run Int32 :=
  if 0 ≤ i ∧ i < indexLimit then
    match (mem r)[i.toNat]? with
    | some w => .done w
    | none => .fault
  else .fault

/-- Replace the word of a buffer at an index. -/
@[irreducible] def write (mem : Memory) (r : Resource) (i : Int) (w : Int32) : Run Memory :=
  if 0 ≤ i ∧ i < indexLimit ∧ i.toNat < (mem r).length then
    .done fun q => if q = r then (mem r).set i.toNat w else mem q
  else .fault

end Memory

end WgslKernel
