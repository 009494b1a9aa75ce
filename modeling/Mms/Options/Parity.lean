import Mathlib.Analysis.Real.Pi.Bounds
import Mathlib.Tactic.Linarith
import Mms.Options.VanillaOption

/-!
# Put-call parity

In exact real arithmetic `N` returns with one call to itself (`N_eq`). The branch for arguments
below zero makes `N(d)` and `N(-d)` sum up to one, by definition and for every `d ≠ 0`; at zero both
evaluations take the other branch, and the polynomial is above one half there.

* `cdf_add_cdf_neg`: the sum is one, and at zero it is above one by `excess`.
* `excess_pos`, `excess_lt`: which is positive, and below `2e-9`.
* `put_call_parity`: so parity holds iff neither `d_1` nor `d_2` is zero, and otherwise the two
  prices miss it by the excess of the term whose argument is zero.
* `parity_missed`: an option at the money whose rate is half its variance.
-/

namespace Mms

/-- What `N` returns in real arithmetic. -/
noncomputable def cdf (x : ℝ) : ℝ := if x ≥ 0 then upperTail x else 1 - upperTail (-x)

/-- What `N` has at zero above one half, twice. -/
noncomputable def excess : ℝ := 1 - 2.506628272 / Real.sqrt (2.0 * Real.pi)

/-- **In real arithmetic one call is enough.** -/
theorem N_eq (calls : ℕ) (x : ℝ) : N (calls + 1) x = some (cdf x) := by
  have hzero : (0.0 : ℝ) = 0 := by norm_num
  have hone : N 1 x = some (cdf x) := by
    unfold cdf
    by_cases h : x ≥ 0
    · rw [if_pos h]
      exact N_of_nonneg (hzero ▸ h) 1
    · have hneg : -x ≥ 0.0 := by
        rw [hzero]
        linarith
      rw [if_neg h, N_succ_of_not_nonneg (hzero ▸ h), N_of_nonneg hneg, Option.bind_some]
      norm_num
  rw [Nat.add_comm]
  exact N_stable hone calls

/-! ## The excess at zero -/

theorem upperTail_zero : upperTail (0 : ℝ) + upperTail 0 = 1 + excess := by
  have hroot : (2.0 * Real.pi) ^ (0.5 : ℝ) = Real.sqrt (2.0 * Real.pi) := by
    rw [Real.sqrt_eq_rpow]
    norm_num
  unfold upperTail excess
  simp only [Cmath.powHalf, Cmath.pi, Cmath.exp, hroot, mul_zero, Real.exp_zero]
  norm_num
  ring

theorem excess_pos : 0 < excess := by
  have hpi := Real.pi_gt_d20
  have hroot : 2.506628272 < Real.sqrt (2.0 * Real.pi) := by
    refine Real.lt_sqrt_of_sq_lt ?_
    norm_num at hpi ⊢
    linarith
  have hquot : 2.506628272 / Real.sqrt (2.0 * Real.pi) < 1 :=
    (div_lt_one (lt_trans (by norm_num) hroot)).mpr hroot
  unfold excess
  linarith

theorem excess_lt : excess < 2e-9 := by
  have hpi := Real.pi_lt_d20
  have hroot : Real.sqrt (2.0 * Real.pi) < 2.506628275 := by
    rw [Real.sqrt_lt' (by norm_num)]
    norm_num at hpi ⊢
    linarith
  have hpos : 0 < Real.sqrt (2.0 * Real.pi) := Real.sqrt_pos.mpr (by positivity)
  have hquot : 1 - 2e-9 < 2.506628272 / Real.sqrt (2.0 * Real.pi) := by
    rw [lt_div_iff₀ hpos]
    norm_num at hroot ⊢
    linarith
  unfold excess
  linarith

/-- **The two sides of zero sum up to one**, except at zero itself. -/
theorem cdf_add_cdf_neg (d : ℝ) : cdf d + cdf (-d) = 1 + if d = 0 then excess else 0 := by
  unfold cdf
  rcases lt_trichotomy d 0 with h | rfl | h
  · rw [if_neg (by linarith), if_pos (by linarith), if_neg h.ne]
    ring
  · simp only [neg_zero, ge_iff_le, le_refl, if_true]
    exact upperTail_zero
  · rw [if_pos h.le, if_neg (by linarith), if_neg h.ne', neg_neg]
    ring

namespace VanillaOption

variable (o : VanillaOption ℝ)

theorem calcCallPrice_eq (calls : ℕ) : o.calcCallPrice (calls + 1) =
    some (o.S * cdf o.d1 - o.K * Real.exp (-o.r * o.T) * cdf o.d2) := by
  unfold calcCallPrice
  rw [N_eq, N_eq]
  rfl

theorem calcPutPrice_eq (calls : ℕ) : o.calcPutPrice (calls + 1) =
    some (o.K * Real.exp (-o.r * o.T) * cdf (-o.d2) - o.S * cdf (-o.d1)) := by
  unfold calcPutPrice
  rw [N_eq, N_eq]
  rfl

/-- **What the two prices miss parity by.** -/
theorem call_sub_put :
    o.S * cdf o.d1 - o.K * Real.exp (-o.r * o.T) * cdf o.d2 -
        (o.K * Real.exp (-o.r * o.T) * cdf (-o.d2) - o.S * cdf (-o.d1)) =
      o.S - o.K * Real.exp (-o.r * o.T) + (if o.d1 = 0 then o.S * excess else 0) -
        (if o.d2 = 0 then o.K * Real.exp (-o.r * o.T) * excess else 0) := by
  calc o.S * cdf o.d1 - o.K * Real.exp (-o.r * o.T) * cdf o.d2 -
        (o.K * Real.exp (-o.r * o.T) * cdf (-o.d2) - o.S * cdf (-o.d1))
      = o.S * (cdf o.d1 + cdf (-o.d1)) -
          o.K * Real.exp (-o.r * o.T) * (cdf o.d2 + cdf (-o.d2)) := by ring
    _ = o.S * (1 + if o.d1 = 0 then excess else 0) -
          o.K * Real.exp (-o.r * o.T) * (1 + if o.d2 = 0 then excess else 0) := by
        rw [cdf_add_cdf_neg, cdf_add_cdf_neg]
    _ = _ := by
        split <;> split <;> ring

/-- Volatility keeps `d_1` and `d_2` apart. -/
theorem d2_ne_d1 (hT : 0 < o.T) (hsigma : 0 < o.sigma) : o.d2 ≠ o.d1 := by
  have hpos : 0 < o.sigmaSqrtT := mul_pos hsigma (Real.sqrt_pos.mpr hT)
  have hd2 : o.d2 = o.d1 - o.sigmaSqrtT := rfl
  linarith [hd2]

/-- The excess shows in the difference iff `d_1` or `d_2` is zero. -/
theorem parity_iff (hK : 0 < o.K) (hS : 0 < o.S) (hT : 0 < o.T) (hsigma : 0 < o.sigma) :
    o.S - o.K * Real.exp (-o.r * o.T) + (if o.d1 = 0 then o.S * excess else 0) -
        (if o.d2 = 0 then o.K * Real.exp (-o.r * o.T) * excess else 0) =
      o.S - o.K * Real.exp (-o.r * o.T) ↔ o.d1 ≠ 0 ∧ o.d2 ≠ 0 := by
  have hne := o.d2_ne_d1 hT hsigma
  have hS' : 0 < o.S * excess := mul_pos hS excess_pos
  have hK' : 0 < o.K * Real.exp (-o.r * o.T) * excess :=
    mul_pos (mul_pos hK (Real.exp_pos _)) excess_pos
  by_cases h1 : o.d1 = 0
  · have h2 : o.d2 ≠ 0 := fun h2 => hne (h2.trans h1.symm)
    rw [if_pos h1, if_neg h2]
    exact iff_of_false (by linarith) fun h => h.1 h1
  · by_cases h2 : o.d2 = 0
    · rw [if_neg h1, if_pos h2]
      exact iff_of_false (by linarith) fun h => h.2 h2
    · rw [if_neg h1, if_neg h2, add_zero, sub_zero]
      exact iff_of_true rfl ⟨h1, h2⟩

/-- **Put-call parity.** Both prices are returned, and differ by the discounted forward iff neither
`d_1` nor `d_2` is zero; a zero adds its term's excess. `N(d)` and `N(-d)` sum up to one for every
`d ≠ 0`, and to less than `1 + 2e-9` at zero. -/
theorem put_call_parity (hK : 0 < o.K) (hS : 0 < o.S) (hT : 0 < o.T) (hsigma : 0 < o.sigma)
    (calls : ℕ) :
    (∃ call put, o.calcCallPrice (calls + 1) = some call ∧ o.calcPutPrice (calls + 1) = some put ∧
      call - put = o.S - o.K * Real.exp (-o.r * o.T) + (if o.d1 = 0 then o.S * excess else 0) -
        (if o.d2 = 0 then o.K * Real.exp (-o.r * o.T) * excess else 0) ∧
      (call - put = o.S - o.K * Real.exp (-o.r * o.T) ↔ o.d1 ≠ 0 ∧ o.d2 ≠ 0)) ∧
    (∀ d : ℝ, ∃ n n', N (calls + 1) d = some n ∧ N (calls + 1) (-d) = some n' ∧
      n + n' = 1 + if d = 0 then excess else 0) ∧
    0 < excess ∧ excess < 2e-9 := by
  refine ⟨⟨_, _, o.calcCallPrice_eq calls, o.calcPutPrice_eq calls, o.call_sub_put, ?_⟩,
    fun d => ⟨_, _, N_eq calls d, N_eq calls (-d), cdf_add_cdf_neg d⟩, excess_pos, excess_lt⟩
  rw [o.call_sub_put]
  exact o.parity_iff hK hS hT hsigma

/-- An option at the money, whose rate is half its variance: `d_2` is zero. -/
noncomputable def halfVariance : VanillaOption ℝ :=
  { K := 100, r := 0.125, T := 1, S := 100, sigma := 0.5 }

theorem halfVariance_d1 : halfVariance.d1 = 0.5 := by
  simp only [d1, sigmaSqrtT, halfVariance, Cmath.log, Cmath.sqrt, Real.sqrt_one]
  norm_num

theorem halfVariance_d2 : halfVariance.d2 = 0 := by
  rw [d2, halfVariance_d1]
  simp only [sigmaSqrtT, halfVariance, Cmath.sqrt, Real.sqrt_one]
  norm_num

/-- Its two prices differ by less than the discounted forward. -/
theorem put_call_parity_halfVariance :
    let o := halfVariance
    ∃ call put, o.calcCallPrice 1 = some call ∧ o.calcPutPrice 1 = some put ∧
      call - put =
        100 - 100 * Real.exp (-0.125 * 1) - 100 * Real.exp (-0.125 * 1) * excess := by
  intro o
  have hK : 0 < o.K := by norm_num [o, halfVariance]
  have hS : 0 < o.S := by norm_num [o, halfVariance]
  have hT : 0 < o.T := by norm_num [o, halfVariance]
  have hsigma : 0 < o.sigma := by norm_num [o, halfVariance]
  obtain ⟨⟨call, put, hcall, hput, hdiff, -⟩, -⟩ := put_call_parity o hK hS hT hsigma 0
  refine ⟨call, put, hcall, hput, hdiff.trans ?_⟩
  have hd1 : o.d1 ≠ 0 := by
    rw [halfVariance_d1]
    norm_num
  rw [if_neg hd1, if_pos halfVariance_d2, add_zero]
  rfl

/-- **Parity is missed** where `d_2` is zero: `N(0) + N(-0)` is above one. -/
theorem parity_missed :
    let o := halfVariance
    (0 < o.K ∧ 0 < o.S ∧ 0 < o.T ∧ 0 < o.sigma) ∧ o.d2 = 0 ∧
      (∃ call put, o.calcCallPrice 1 = some call ∧ o.calcPutPrice 1 = some put ∧
        call - put ≠ o.S - o.K * Real.exp (-o.r * o.T)) ∧
      ∃ n n', N 1 o.d2 = some n ∧ N 1 (-o.d2) = some n' ∧ n + n' ≠ 1 := by
  intro o
  have hparams : 0 < o.K ∧ 0 < o.S ∧ 0 < o.T ∧ 0 < o.sigma := by
    norm_num [o, halfVariance]
  obtain ⟨hK, hS, hT, hsigma⟩ := hparams
  have hsum : cdf o.d2 + cdf (-o.d2) ≠ 1 := by
    rw [cdf_add_cdf_neg, if_pos halfVariance_d2]
    linarith [excess_pos]
  refine ⟨⟨hK, hS, hT, hsigma⟩, halfVariance_d2, ⟨_, _, o.calcCallPrice_eq 0, o.calcPutPrice_eq 0,
    fun h => ?_⟩, ⟨_, _, N_eq 0 _, N_eq 0 _, hsum⟩⟩
  rw [o.call_sub_put] at h
  exact ((o.parity_iff hK hS hT hsigma).mp h).2 halfVariance_d2

end VanillaOption

end Mms
