import Mathlib.Tactic.Positivity
import Mms.Options.Parity

/-!
# What no arbitrage demands of the prices

In exact real arithmetic, `N` with its polynomial is only close to the normal distribution, and the
prices are only close to those of the model. But they keep the bounds that follow from the absence
of arbitrage, without any error: the tail of `N` is the normal density times a factor
(`tailRatio`), the density is exact, and the factor has the same monotonicity as the true one.

* `strictMono_lowerRatio`, `strictAnti_upperRatio`: the two sides of `N`, over the density.
* `N_distribution`: `N` is a distribution function. It jumps at zero, by `excess`, and nowhere else.
* `strike_density`: the discounted strike at the density of `d_2` is the spot at the density of
  `d_1`, so each bound compares one ratio at `d_1` and at `d_2`.
* `no_arbitrage`: the call lies strictly between `max(S - K * exp(-r * T), 0)` and `S`, the put
  between `max(K * exp(-r * T) - S, 0)` and `K * exp(-r * T)`.
-/

namespace Mms

open Filter Topology

/-! ## The polynomial and the density -/

/-- `k_sum`, as a function of `k`. -/
noncomputable def kSum (k : ℝ) : ℝ :=
  k * (0.319381530 + k * (-0.356563782 + k * (1.781477937 +
    k * (-1.821255978 + 1.330274429 * k))))

/-- `k_sum`, as a function of the argument of `N`. -/
noncomputable def tailRatio (x : ℝ) : ℝ := kSum (1 / (1 + 0.2316419 * x))

/-- The normal density, the other factor of the tail. -/
noncomputable def density (x : ℝ) : ℝ := 1.0 / powHalf (2.0 * pi) * exp (-0.5 * x * x)

theorem upperTail_eq (x : ℝ) : upperTail x = 1 - density x * tailRatio x := by
  have hone : (1.0 : ℝ) = 1 := by norm_num
  unfold upperTail density tailRatio kSum
  rw [hone]

theorem density_eq (x : ℝ) :
    density x = Real.exp (-(x ^ 2 / 2)) / Real.sqrt (2 * Real.pi) := by
  have hroot : (2.0 * Real.pi) ^ (0.5 : ℝ) = Real.sqrt (2 * Real.pi) := by
    rw [Real.sqrt_eq_rpow]
    norm_num
  have hexp : -0.5 * x * x = -(x ^ 2 / 2) := by ring
  have hone : (1.0 : ℝ) = 1 := by norm_num
  unfold density
  simp only [Cmath.powHalf, Cmath.pi, Cmath.exp, hroot, hexp, hone]
  ring

/-- The polynomial increases: of the difference quotient, what depends on the distance of the two
arguments is positive, and so is the rest, the derivative halfway between them. -/
theorem kSum_lt {j k : ℝ} (h : j < k) : kSum j < kSum k := by
  obtain ⟨m, d, hd, rfl, rfl⟩ : ∃ m d : ℝ, 0 < d ∧ j = m - d ∧ k = m + d :=
    ⟨(j + k) / 2, (k - j) / 2, by linarith, by ring, by ring⟩
  have hquot : kSum (m + d) - kSum (m - d) =
      2 * d * (0.319381530 + 2 * -0.356563782 * m + 3 * 1.781477937 * m ^ 2 +
        4 * -1.821255978 * m ^ 3 + 5 * 1.330274429 * m ^ 4 +
        d ^ 2 * (1.781477937 + 4 * -1.821255978 * m + 10 * 1.330274429 * m ^ 2) +
        1.330274429 * d ^ 4) := by
    unfold kSum
    ring
  have hderivative : 0 < 0.319381530 + 2 * -0.356563782 * m + 3 * 1.781477937 * m ^ 2 +
      4 * -1.821255978 * m ^ 3 + 5 * 1.330274429 * m ^ 4 := by
    nlinarith [sq_nonneg (m * (m - 0.5476)), sq_nonneg (m - 0.1), sq_nonneg m]
  have hdistance : 0 ≤ 1.781477937 + 4 * -1.821255978 * m + 10 * 1.330274429 * m ^ 2 := by
    nlinarith [sq_nonneg (m - 0.2738)]
  have hsum := add_pos_of_pos_of_nonneg
    (add_pos_of_pos_of_nonneg hderivative (mul_nonneg (sq_nonneg d) hdistance))
    (by positivity : 0 ≤ 1.330274429 * d ^ 4)
  have hpos := mul_pos (mul_pos two_pos hd) hsum
  linarith

theorem tailRatio_lt {x y : ℝ} (hx : 0 ≤ x) (h : x < y) : tailRatio y < tailRatio x := by
  refine kSum_lt (one_div_lt_one_div_of_lt ?_ ?_) <;> linarith

theorem tailRatio_le {x y : ℝ} (hx : 0 ≤ x) (h : x ≤ y) : tailRatio y ≤ tailRatio x := by
  rcases h.eq_or_lt with rfl | h
  · exact le_refl _
  · exact (tailRatio_lt hx h).le

theorem tailRatio_pos {x : ℝ} (hx : 0 ≤ x) : 0 < tailRatio x := by
  have hzero : kSum 0 = 0 := by
    unfold kSum
    ring
  rw [← hzero]
  exact kSum_lt (one_div_pos.mpr (by linarith))

theorem density_pos (x : ℝ) : 0 < density x := by
  rw [density_eq]
  exact div_pos (Real.exp_pos _) (Real.sqrt_pos.mpr (by positivity))

theorem density_neg (x : ℝ) : density (-x) = density x := by
  rw [density_eq, density_eq, neg_sq]

theorem density_lt {x y : ℝ} (hx : 0 ≤ x) (h : x < y) : density y < density x := by
  have hsq : x ^ 2 < y ^ 2 := pow_lt_pow_left₀ h hx two_ne_zero
  rw [density_eq, density_eq]
  refine div_lt_div_of_pos_right (Real.exp_lt_exp.mpr ?_) (Real.sqrt_pos.mpr (by positivity))
  linarith

/-- At zero the tail is below one half. -/
theorem tail_zero : 2 * (density 0 * tailRatio 0) = 1 - excess := by
  have h := upperTail_zero
  rw [upperTail_eq] at h
  linarith

/-! ## The two sides of `N` -/

theorem cdf_of_nonneg {x : ℝ} (hx : 0 ≤ x) : cdf x = 1 - density x * tailRatio x := by
  rw [cdf, if_pos hx, upperTail_eq]

theorem cdf_of_neg {x : ℝ} (hx : x < 0) : cdf x = density x * tailRatio (-x) := by
  rw [cdf, if_neg (not_le.mpr hx), upperTail_eq, density_neg]
  ring

/-- What is left of one, over the density. -/
noncomputable def bodyRatio (x : ℝ) : ℝ := 1 / density x - tailRatio x

theorem bodyRatio_lt {x y : ℝ} (hx : 0 ≤ x) (h : x < y) : bodyRatio x < bodyRatio y := by
  have hdensity := one_div_lt_one_div_of_lt (density_pos y) (density_lt hx h)
  have htail := tailRatio_lt hx h
  unfold bodyRatio
  linarith

/-- The tail is the smaller part. -/
theorem tailRatio_lt_bodyRatio {x y : ℝ} (hx : 0 ≤ x) (hy : 0 ≤ y) :
    tailRatio x < bodyRatio y := by
  have hzero : tailRatio 0 < bodyRatio 0 := by
    have h := tail_zero
    have hpos := excess_pos
    unfold bodyRatio
    rw [lt_sub_iff_add_lt, lt_div_iff₀ (density_pos 0)]
    linarith
  have htail := tailRatio_le (le_refl 0) hx
  rcases hy.eq_or_lt with rfl | hy
  · exact lt_of_le_of_lt htail hzero
  · exact (lt_of_le_of_lt htail hzero).trans (bodyRatio_lt (le_refl 0) hy)

/-- The lower side of `N`, over the density. -/
noncomputable def lowerRatio (x : ℝ) : ℝ := if 0 ≤ x then bodyRatio x else tailRatio (-x)

/-- The upper side of `N`, over the density. -/
noncomputable def upperRatio (x : ℝ) : ℝ := if 0 ≤ x then tailRatio x else bodyRatio (-x)

theorem cdf_eq (x : ℝ) : cdf x = density x * lowerRatio x := by
  have hne := (density_pos x).ne'
  unfold lowerRatio
  split
  · rw [cdf_of_nonneg ‹_›, bodyRatio]
    field_simp
  · exact cdf_of_neg (not_le.mp ‹_›)

theorem one_sub_cdf_eq (x : ℝ) : 1 - cdf x = density x * upperRatio x := by
  have hne := (density_pos x).ne'
  unfold upperRatio
  split
  · rw [cdf_of_nonneg ‹_›]
    ring
  · rw [cdf_of_neg (not_le.mp ‹_›), bodyRatio, density_neg]
    field_simp

theorem strictMono_lowerRatio : StrictMono lowerRatio := by
  intro x y h
  unfold lowerRatio
  by_cases hx : 0 ≤ x
  · rw [if_pos hx, if_pos (hx.trans h.le)]
    exact bodyRatio_lt hx h
  · rw [if_neg hx]
    by_cases hy : 0 ≤ y
    · rw [if_pos hy]
      exact tailRatio_lt_bodyRatio (by linarith) hy
    · rw [if_neg hy]
      exact tailRatio_lt (by linarith) (by linarith)

theorem strictAnti_upperRatio : StrictAnti upperRatio := by
  intro x y h
  unfold upperRatio
  by_cases hx : 0 ≤ x
  · rw [if_pos hx, if_pos (hx.trans h.le)]
    exact tailRatio_lt hx h
  · rw [if_neg hx]
    by_cases hy : 0 ≤ y
    · rw [if_pos hy]
      exact tailRatio_lt_bodyRatio hy (by linarith)
    · rw [if_neg hy]
      exact bodyRatio_lt (by linarith) (by linarith)

theorem lowerRatio_pos (x : ℝ) : 0 < lowerRatio x := by
  unfold lowerRatio
  split
  · exact (tailRatio_pos ‹_›).trans (tailRatio_lt_bodyRatio ‹_› ‹_›)
  · exact tailRatio_pos (by linarith)

theorem upperRatio_pos (x : ℝ) : 0 < upperRatio x := by
  unfold upperRatio
  split
  · exact tailRatio_pos ‹_›
  · have hneg : 0 ≤ -x := by linarith
    exact (tailRatio_pos hneg).trans (tailRatio_lt_bodyRatio hneg hneg)

theorem cdf_pos (x : ℝ) : 0 < cdf x := by
  rw [cdf_eq]
  exact mul_pos (density_pos x) (lowerRatio_pos x)

theorem cdf_lt_one (x : ℝ) : cdf x < 1 := by
  have h := mul_pos (density_pos x) (upperRatio_pos x)
  rw [← one_sub_cdf_eq] at h
  linarith

theorem strictMono_cdf : StrictMono cdf := by
  intro x y h
  by_cases hx : 0 ≤ x
  · -- on the right, what is missing to one decreases in both factors
    have hmul := mul_lt_mul'' (density_lt hx h) (strictAnti_upperRatio h) (density_pos y).le
      (upperRatio_pos y).le
    rw [← one_sub_cdf_eq, ← one_sub_cdf_eq] at hmul
    linarith
  · have hlower := strictMono_lowerRatio h
    by_cases hy : 0 ≤ y
    · -- across zero, `N` goes from below one half to above it
      have hmul : density x * lowerRatio x < density 0 * tailRatio 0 := by
        have htail : lowerRatio x < tailRatio 0 := by
          rw [lowerRatio, if_neg hx]
          exact tailRatio_lt (le_refl 0) (by linarith)
        have hdensity := density_lt (le_refl 0) (y := -x) (by linarith)
        rw [density_neg] at hdensity
        exact mul_lt_mul'' hdensity htail (density_pos x).le (lowerRatio_pos x).le
      have hmul' : density y * upperRatio y ≤ density 0 * tailRatio 0 := by
        rw [upperRatio, if_pos hy]
        rcases hy.eq_or_lt with rfl | hlt
        · exact le_refl _
        · exact (mul_lt_mul'' (density_lt (le_refl 0) hlt) (tailRatio_lt (le_refl 0) hlt)
            (density_pos y).le (tailRatio_pos hy).le).le
      rw [← cdf_eq] at hmul
      rw [← one_sub_cdf_eq] at hmul'
      have hhalf := tail_zero
      have hpos := excess_pos
      linarith
    · have hdensity := density_lt (x := -y) (y := -x) (by linarith) (by linarith)
      rw [density_neg, density_neg] at hdensity
      have hmul := mul_lt_mul'' hdensity hlower (density_pos x).le (lowerRatio_pos x).le
      rwa [← cdf_eq, ← cdf_eq] at hmul

/-! ## Limits -/

theorem tendsto_density : Tendsto density atTop (𝓝 0) := by
  have hsq : Tendsto (fun x : ℝ => x ^ 2 / 2) atTop atTop :=
    (tendsto_pow_atTop two_ne_zero).atTop_div_const two_pos
  have hexp := (Real.tendsto_exp_neg_atTop_nhds_zero.comp hsq).div_const (Real.sqrt (2 * Real.pi))
  rw [zero_div] at hexp
  exact hexp.congr fun x => (density_eq x).symm

/-- The tail vanishes. -/
theorem tendsto_tail : Tendsto (fun x => density x * tailRatio x) atTop (𝓝 0) := by
  have hbound : Tendsto (fun x => density x * tailRatio 0) atTop (𝓝 0) := by
    have h := tendsto_density.mul_const (tailRatio 0)
    rwa [zero_mul] at h
  refine squeeze_zero' ?_ ?_ hbound
  · filter_upwards [eventually_ge_atTop 0] with x hx
    exact (mul_pos (density_pos x) (tailRatio_pos hx)).le
  · filter_upwards [eventually_ge_atTop 0] with x hx
    exact mul_le_mul_of_nonneg_left (tailRatio_le (le_refl 0) hx) (density_pos x).le

theorem tendsto_cdf_atTop : Tendsto cdf atTop (𝓝 1) := by
  have h := tendsto_tail.const_sub 1
  rw [sub_zero] at h
  refine h.congr' ?_
  filter_upwards [eventually_ge_atTop 0] with x hx
  exact (cdf_of_nonneg hx).symm

theorem tendsto_cdf_atBot : Tendsto cdf atBot (𝓝 0) := by
  have h := tendsto_tail.comp tendsto_neg_atBot_atTop
  refine h.congr' ?_
  filter_upwards [eventually_lt_atBot 0] with x hx
  rw [cdf_of_neg hx, Function.comp_apply, density_neg]

theorem continuousAt_upperTail {x : ℝ} (hx : 0 ≤ x) : ContinuousAt upperTail x := by
  have hne : 1 + 0.2316419 * x ≠ 0 := by positivity
  have hdensity : ContinuousAt density x := by
    simp only [funext density_eq]
    fun_prop
  have hratio : ContinuousAt tailRatio x := by
    unfold tailRatio kSum
    fun_prop (disch := assumption)
  have h := continuousAt_const (y := (1 : ℝ)).sub (hdensity.mul hratio)
  refine h.congr (Eventually.of_forall fun y => ?_)
  exact (upperTail_eq y).symm

/-- The other branch of `N`, up to zero. -/
theorem continuousAt_lower {x : ℝ} (hx : x ≤ 0) :
    ContinuousAt (fun y : ℝ => 1 - upperTail (-y)) x := by
  have hneg : ContinuousAt (fun y : ℝ => upperTail (-y)) x :=
    ContinuousAt.comp (f := Neg.neg) (continuousAt_upperTail (by linarith)) continuousAt_neg
  exact continuousAt_const.sub hneg

theorem continuousAt_cdf {x : ℝ} (hx : x ≠ 0) : ContinuousAt cdf x := by
  rcases hx.lt_or_gt with hx | hx
  · refine (continuousAt_lower hx.le).congr ?_
    filter_upwards [eventually_lt_nhds hx] with y hy
    rw [cdf, if_neg (not_le.mpr hy)]
  · refine (continuousAt_upperTail hx.le).congr ?_
    filter_upwards [eventually_gt_nhds hx] with y hy
    rw [cdf, if_pos hy.le]

/-- At zero `N` is continuous from the right. -/
theorem continuousWithinAt_cdf : ContinuousWithinAt cdf (Set.Ici 0) 0 := by
  have hright : ∀ y ∈ Set.Ici (0 : ℝ), cdf y = upperTail y := by
    intro y hy
    rw [cdf, if_pos (Set.mem_Ici.mp hy)]
  exact (continuousAt_upperTail (le_refl 0)).continuousWithinAt.congr hright
    (hright 0 Set.self_mem_Ici)

/-- From the left it is below its value there by the excess. -/
theorem tendsto_cdf_zero : Tendsto cdf (𝓝[<] 0) (𝓝 (cdf 0 - excess)) := by
  have hlimit : cdf 0 - excess = 1 - upperTail (-(0 : ℝ)) := by
    have h := upperTail_zero
    rw [cdf, if_pos (le_refl 0), neg_zero]
    linarith
  rw [hlimit]
  refine ((continuousAt_lower (le_refl 0)).tendsto.mono_left nhdsWithin_le_nhds).congr' ?_
  filter_upwards [self_mem_nhdsWithin] with y hy
  rw [cdf, if_neg (not_le.mpr hy)]

/-- **`N` is a distribution function.** In exact real arithmetic it returns for every argument; what
it returns strictly increases, lies between zero and one, and tends to them. It is continuous but at
zero, where it is continuous from the right and jumps by the excess. -/
theorem N_distribution : ∃ F : ℝ → ℝ, (∀ calls x, N (calls + 1) x = some (F x)) ∧
    StrictMono F ∧ (∀ x, 0 < F x ∧ F x < 1) ∧
    Tendsto F atBot (𝓝 0) ∧ Tendsto F atTop (𝓝 1) ∧
    (∀ x, x ≠ 0 → ContinuousAt F x) ∧ ContinuousWithinAt F (Set.Ici 0) 0 ∧
    Tendsto F (𝓝[<] 0) (𝓝 (F 0 - excess)) ∧ 0 < excess :=
  ⟨cdf, N_eq, strictMono_cdf, fun x => ⟨cdf_pos x, cdf_lt_one x⟩, tendsto_cdf_atBot,
    tendsto_cdf_atTop, fun _ hx => continuousAt_cdf hx, continuousWithinAt_cdf, tendsto_cdf_zero,
    excess_pos⟩

/-! ## The prices -/

namespace VanillaOption

variable (o : VanillaOption ℝ)

/-- The strike, discounted. -/
noncomputable def discounted : ℝ := o.K * Real.exp (-o.r * o.T)

/-- **The discounted strike at `d_2` is the spot at `d_1`**, by the density. -/
theorem strike_density (hK : 0 < o.K) (hS : 0 < o.S) (hT : 0 < o.T) (hsigma : 0 < o.sigma) :
    o.discounted * density o.d2 = o.S * density o.d1 := by
  have hroot : Real.sqrt o.T ^ 2 = o.T := Real.sq_sqrt hT.le
  have hne : o.sigma * Real.sqrt o.T ≠ 0 := (mul_pos hsigma (Real.sqrt_pos.mpr hT)).ne'
  have hd1 : o.sigma * Real.sqrt o.T * o.d1 =
      Real.log (o.S / o.K) + (o.r + o.sigma * o.sigma * 0.5) * o.T := mul_div_cancel₀ _ hne
  have hd2 : o.d2 = o.d1 - o.sigma * Real.sqrt o.T := rfl
  have hexponent : -o.r * o.T + -(o.d2 ^ 2 / 2) = Real.log (o.S / o.K) + -(o.d1 ^ 2 / 2) := by
    have hsquare : (o.sigma * Real.sqrt o.T) ^ 2 = o.sigma ^ 2 * o.T := by rw [mul_pow, hroot]
    rw [hd2]
    linear_combination hd1 - hsquare / 2
  have hexp : Real.exp (-o.r * o.T) * Real.exp (-(o.d2 ^ 2 / 2)) =
      o.S / o.K * Real.exp (-(o.d1 ^ 2 / 2)) := by
    rw [← Real.exp_add, hexponent, Real.exp_add, Real.exp_log (div_pos hS hK)]
  rw [density_eq, density_eq, discounted]
  calc o.K * Real.exp (-o.r * o.T) * (Real.exp (-(o.d2 ^ 2 / 2)) / Real.sqrt (2 * Real.pi))
      = o.K * (Real.exp (-o.r * o.T) * Real.exp (-(o.d2 ^ 2 / 2))) / Real.sqrt (2 * Real.pi) := by
        ring
    _ = o.S * (Real.exp (-(o.d1 ^ 2 / 2)) / Real.sqrt (2 * Real.pi)) := by
        rw [hexp]
        field_simp

/-- Volatility puts `d_2` below `d_1`. -/
theorem d2_lt_d1 (hT : 0 < o.T) (hsigma : 0 < o.sigma) : o.d2 < o.d1 := by
  have hpos : 0 < o.sigma * Real.sqrt o.T := mul_pos hsigma (Real.sqrt_pos.mpr hT)
  have hd2 : o.d2 = o.d1 - o.sigma * Real.sqrt o.T := rfl
  linarith

/-- **The bounds that no arbitrage demands.** The call is worth less than the spot, and more than
nothing and than the forward; the put is worth less than the discounted strike, and more than
nothing and than the forward the other way round. -/
theorem no_arbitrage (hK : 0 < o.K) (hS : 0 < o.S) (hT : 0 < o.T) (hsigma : 0 < o.sigma)
    (calls : ℕ) :
    ∃ call put, o.calcCallPrice (calls + 1) = some call ∧ o.calcPutPrice (calls + 1) = some put ∧
      (max (o.S - o.K * Real.exp (-o.r * o.T)) 0 < call ∧ call < o.S) ∧
      max (o.K * Real.exp (-o.r * o.T) - o.S) 0 < put ∧ put < o.K * Real.exp (-o.r * o.T) := by
  refine ⟨_, _, o.calcCallPrice_eq calls, o.calcPutPrice_eq calls, ?_⟩
  change (max (o.S - o.discounted) 0 < o.S * cdf o.d1 - o.discounted * cdf o.d2 ∧
      o.S * cdf o.d1 - o.discounted * cdf o.d2 < o.S) ∧
    max (o.discounted - o.S) 0 < o.discounted * cdf (-o.d2) - o.S * cdf (-o.d1) ∧
      o.discounted * cdf (-o.d2) - o.S * cdf (-o.d1) < o.discounted
  have hstrike : 0 < o.discounted := mul_pos hK (Real.exp_pos _)
  have hkey := o.strike_density hK hS hT hsigma
  have hweight : 0 < o.S * density o.d1 := mul_pos hS (density_pos _)
  have hd := o.d2_lt_d1 hT hsigma
  -- each difference is the common weight times the difference of one ratio
  have hcall : o.S * cdf o.d1 - o.discounted * cdf o.d2 =
      o.S * density o.d1 * (lowerRatio o.d1 - lowerRatio o.d2) := by
    rw [cdf_eq, cdf_eq]
    linear_combination -(lowerRatio o.d2) * hkey
  have hforward : o.S * cdf o.d1 - o.discounted * cdf o.d2 - (o.S - o.discounted) =
      o.S * density o.d1 * (upperRatio o.d2 - upperRatio o.d1) := by
    have h1 := one_sub_cdf_eq o.d1
    have h2 := one_sub_cdf_eq o.d2
    linear_combination o.discounted * h2 - o.S * h1 + upperRatio o.d2 * hkey
  have hput : o.discounted * cdf (-o.d2) - o.S * cdf (-o.d1) =
      o.S * density o.d1 * (lowerRatio (-o.d2) - lowerRatio (-o.d1)) := by
    rw [cdf_eq, cdf_eq, density_neg, density_neg]
    linear_combination lowerRatio (-o.d2) * hkey
  have hbackward : o.discounted * cdf (-o.d2) - o.S * cdf (-o.d1) - (o.discounted - o.S) =
      o.S * density o.d1 * (upperRatio (-o.d1) - upperRatio (-o.d2)) := by
    have h1 := one_sub_cdf_eq (-o.d1)
    have h2 := one_sub_cdf_eq (-o.d2)
    rw [density_neg] at h1 h2
    linear_combination o.S * h1 - o.discounted * h2 - upperRatio (-o.d2) * hkey
  have hcall0 := mul_pos hweight (sub_pos.mpr (strictMono_lowerRatio hd))
  have hforward0 := mul_pos hweight (sub_pos.mpr (strictAnti_upperRatio hd))
  have hput0 := mul_pos hweight (sub_pos.mpr (strictMono_lowerRatio (neg_lt_neg hd)))
  have hbackward0 := mul_pos hweight (sub_pos.mpr (strictAnti_upperRatio (neg_lt_neg hd)))
  rw [← hcall] at hcall0
  rw [← hforward] at hforward0
  rw [← hput] at hput0
  rw [← hbackward] at hbackward0
  refine ⟨⟨max_lt (by linarith) hcall0, ?_⟩, max_lt (by linarith) hput0, ?_⟩
  · have hmul := mul_lt_mul_of_pos_left (cdf_lt_one o.d1) hS
    have hmul' := mul_pos hstrike (cdf_pos o.d2)
    linarith
  · have hmul := mul_lt_mul_of_pos_left (cdf_lt_one (-o.d2)) hstrike
    have hmul' := mul_pos hS (cdf_pos (-o.d1))
    linarith

/-- The option of the default constructor. -/
theorem no_arbitrage_init :
    let o : VanillaOption ℝ := init
    ∃ call put, o.calcCallPrice 1 = some call ∧ o.calcPutPrice 1 = some put ∧
      (max (o.S - o.K * Real.exp (-o.r * o.T)) 0 < call ∧ call < o.S) ∧
      max (o.K * Real.exp (-o.r * o.T) - o.S) 0 < put ∧ put < o.K * Real.exp (-o.r * o.T) := by
  intro o
  exact no_arbitrage o (by norm_num [o, init]) (by norm_num [o, init]) (by norm_num [o, init])
    (by norm_num [o, init]) 0

end VanillaOption

end Mms
