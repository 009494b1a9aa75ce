import Mathlib.Analysis.SpecialFunctions.Pow.Real
import Mms.Lib.Extended

/-!
# The closed-form pricer (`src/mms/options/VanillaOption.cc`)

`N` is the distribution function by its polynomial approximation: for an argument below zero it
calls itself on the negation. `calc_call_price` and `calc_put_price` evaluate it at `d_1` and `d_2`
and at their negations.

The text is over any kind of number that has the operators and the `<cmath>` functions it uses:
`double` is `Float` here, exact real arithmetic is `ℝ`, and `Extended` has the infinities and NaN
but does not round. `N` may call itself without end, so it takes the number of calls it is allowed
and returns nothing when it would need more. With more calls a result stays as it is (`N_stable`).
-/

namespace Mms

open Lib

/-- The functions of `<cmath>` in the pricer. `powHalf` is `pow(·, 0.5)`, the only power taken. -/
class Cmath (α : Type) where
  exp : α → α
  log : α → α
  sqrt : α → α
  powHalf : α → α
  /-- `M_PI`. -/
  pi : α

export Cmath (exp log sqrt powHalf pi)

/-- `VanillaOption`: every tuple of parameters is one, the constructor checks nothing. -/
structure VanillaOption (α : Type) where
  K : α
  r : α
  T : α
  S : α
  sigma : α

section Pricer

variable {α : Type} [OfScientific α] [Neg α] [Add α] [Sub α] [Mul α] [Div α] [LE α] [DecidableLE α]
  [Cmath α]

/-- `N` where it does not call itself. -/
def upperTail (x : α) : α :=
  let k := 1.0 / (1.0 + 0.2316419 * x)
  let k_sum := k * (0.319381530 + k * (-0.356563782 + k * (1.781477937 +
    k * (-1.821255978 + 1.330274429 * k))))
  1.0 - 1.0 / powHalf (2.0 * pi) * exp (-0.5 * x * x) * k_sum

/-- `N`, when it may call itself `calls` times. -/
def N : (calls : ℕ) → α → Option α
  | 0, x => if x ≥ 0.0 then some (upperTail x) else none
  | calls + 1, x =>
    if x ≥ 0.0 then some (upperTail x)
    else do
      let n ← N calls (-x)
      some (1.0 - n)

theorem N_of_nonneg {x : α} (h : x ≥ 0.0) (calls : ℕ) : N calls x = some (upperTail x) := by
  cases calls <;> exact if_pos h

theorem N_zero_of_not_nonneg {x : α} (h : ¬ x ≥ 0.0) : N 0 x = none := if_neg h

theorem N_succ_of_not_nonneg {x : α} (h : ¬ x ≥ 0.0) (calls : ℕ) :
    N (calls + 1) x = (N calls (-x)).bind fun n => some (1.0 - n) := if_neg h

/-- A result stands when another call is allowed. -/
theorem N_succ {calls : ℕ} {x y : α} (h : N calls x = some y) : N (calls + 1) x = some y := by
  induction calls generalizing x y with
  | zero =>
    by_cases hx : x ≥ 0.0
    · rw [N_of_nonneg hx] at h ⊢
      exact h
    · rw [N_zero_of_not_nonneg hx] at h
      exact absurd h (by simp)
  | succ calls ih =>
    by_cases hx : x ≥ 0.0
    · rw [N_of_nonneg hx] at h ⊢
      exact h
    · rw [N_succ_of_not_nonneg hx] at h
      obtain ⟨n, hn, hy⟩ := Option.bind_eq_some_iff.mp h
      rw [N_succ_of_not_nonneg hx, ih hn]
      exact hy

/-- **The number of calls only decides whether `N` returns**, not what. -/
theorem N_stable {calls : ℕ} {x y : α} (h : N calls x = some y) (more : ℕ) :
    N (calls + more) x = some y := by
  induction more with
  | zero => exact h
  | succ more ih => exact N_succ ih

namespace VanillaOption

/-- `init`, by the default constructor. -/
def init : VanillaOption α := { K := 100.0, r := 0.05, T := 0.1, S := 100.0, sigma := 0.2 }

variable (o : VanillaOption α)

/-- The local `sigma_sqrt_T` of both pricers. -/
def sigmaSqrtT : α := o.sigma * sqrt o.T

/-- The local `d_1` of both pricers. -/
def d1 : α :=
  (log (o.S / o.K) + (o.r + o.sigma * o.sigma * 0.5) * o.T) / o.sigmaSqrtT

/-- The local `d_2` of both pricers. -/
def d2 : α := o.d1 - o.sigmaSqrtT

/-- `calc_call_price`. -/
def calcCallPrice (calls : ℕ) : Option α := do
  let n1 ← N calls o.d1
  let n2 ← N calls o.d2
  some (o.S * n1 - o.K * exp (-o.r * o.T) * n2)

/-- `calc_put_price`. -/
def calcPutPrice (calls : ℕ) : Option α := do
  let n2 ← N calls (-o.d2)
  let n1 ← N calls (-o.d1)
  some (o.K * exp (-o.r * o.T) * n2 - o.S * n1)

end VanillaOption

end Pricer

/-! ## The numbers -/

/-- The numbers of the program. -/
instance : Cmath Float where
  exp := Float.exp
  log := Float.log
  sqrt := Float.sqrt
  powHalf x := x.pow 0.5
  pi := 3.14159265358979323846

/-- Exact real arithmetic. -/
noncomputable instance : Cmath ℝ where
  exp := Real.exp
  log := Real.log
  sqrt := Real.sqrt
  powHalf x := x ^ (0.5 : ℝ)
  pi := Real.pi

/-- Infinities and NaN, and no rounding. -/
noncomputable instance : Cmath Extended where
  exp := Extended.exp
  log := Extended.log
  sqrt := Extended.sqrt
  powHalf := Extended.powHalf
  pi := Extended.ofReal Real.pi

end Mms
