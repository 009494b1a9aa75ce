import Mathlib.Data.List.Basic

/-!
# Programs that read memory

`Reads β α` is a program that loads cells of type `β`, one position after the other, and returns an
`α`; what it loads next may depend on what it has seen. `eval` runs it on a memory, `positions` are
the positions it loads there.

* `Within n x`: every position the program can load is below `n`. A program built from parts that
  are is so too (`within_bind`).
* `positions_lt`: what it loads is then below `n`, on every memory.
* `eval_bind`: the result of a program built from parts is computed part by part.
-/

namespace Mms.Lib

/-- A program that loads cells of type `β` and returns an `α`. -/
inductive Reads (β α : Type) where
  | done (a : α)
  | load (i : ℕ) (k : β → Reads β α)

namespace Reads

variable {β α γ : Type} {n : ℕ}

/-- One program after the other. -/
def bind : Reads β α → (α → Reads β γ) → Reads β γ
  | done a, f => f a
  | load i k, f => load i fun b => (k b).bind f

instance : Monad (Reads β) where
  pure := done
  bind := bind

/-- The result on a memory. -/
def eval (mem : ℕ → β) : Reads β α → α
  | done a => a
  | load i k => (k (mem i)).eval mem

/-- The positions loaded from a memory, in order. -/
def positions (mem : ℕ → β) : Reads β α → List ℕ
  | done _ => []
  | load i k => i :: (k (mem i)).positions mem

/-- Every position the program can load is below `n`. -/
def Within (n : ℕ) : Reads β α → Prop
  | done _ => True
  | load i k => i < n ∧ ∀ b, (k b).Within n

@[simp] theorem eval_pure (mem : ℕ → β) (a : α) : (pure a : Reads β α).eval mem = a := rfl

@[simp] theorem eval_load (mem : ℕ → β) (i : ℕ) (k : β → Reads β α) :
    (load i k).eval mem = (k (mem i)).eval mem := rfl

@[simp] theorem eval_bind (mem : ℕ → β) (x : Reads β α) (f : α → Reads β γ) :
    (x >>= f).eval mem = (f (x.eval mem)).eval mem := by
  induction x with
  | done a => rfl
  | load i k ih => exact ih (mem i)

theorem within_pure (a : α) : (pure a : Reads β α).Within n := trivial

theorem within_load {i : ℕ} {k : β → Reads β α} (hi : i < n) (hk : ∀ b, (k b).Within n) :
    (load i k).Within n := ⟨hi, hk⟩

/-- **A program built from parts.** -/
theorem within_bind {x : Reads β α} {f : α → Reads β γ} (hx : x.Within n)
    (hf : ∀ a, (f a).Within n) : (x >>= f).Within n := by
  induction x with
  | done a => exact hf a
  | load i k ih => exact ⟨hx.1, fun b => ih b (hx.2 b)⟩

theorem positions_lt (mem : ℕ → β) {x : Reads β α} (hx : x.Within n) :
    ∀ p ∈ x.positions mem, p < n := by
  induction x with
  | done a => exact fun p hp => absurd hp List.not_mem_nil
  | load i k ih =>
    intro p hp
    rcases List.mem_cons.mp hp with rfl | hp
    · exact hx.1
    · exact ih (mem i) (hx.2 (mem i)) p hp

end Reads

end Mms.Lib
