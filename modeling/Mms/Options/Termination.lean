import Mathlib.Tactic.Linarith
import Mms.Options.VanillaOption

/-!
# When the distribution function returns

Over numbers with infinities and NaN, `N` takes the branch that calls it again for every argument
that is not at least zero. For a number that is one call (`exists_N`); NaN is not at least zero
either, its negation is NaN, and so the calls never end (`N_nan`).

Both pricers evaluate `N` at `d_1` and `d_2`, so what is asked is when these are NaN.
* `Priceable`: the condition on the parameters, with one field for each way to a NaN.
* `Priceable.d1_ne_nan`, `priceable_of_d1`: it is exact.
* `pricers_return_iff`: both prices are returned, with one call at most for each evaluation, iff the
  parameters are priceable; otherwise neither is, whatever the number of calls.
* `expired_never_priced`: an expired option at the money.
-/

namespace Mms

open Lib

open Lib.Extended (IsFin val posInf negInf)

/-! ## The calls -/

/-- **NaN calls again for ever.** -/
theorem N_nan (calls : ℕ) : N calls Extended.nan = none := by
  induction calls with
  | zero => exact N_zero_of_not_nonneg Extended.not_nonneg_nan
  | succ calls ih =>
    rw [N_succ_of_not_nonneg Extended.not_nonneg_nan, Extended.neg_nan, ih]
    rfl

/-- **A number calls at most once.** -/
theorem exists_N {x : Extended} (hx : x ≠ .nan) : ∃ n, N 1 x = some n := by
  by_cases h : x ≥ 0.0
  · exact ⟨upperTail x, N_of_nonneg h 1⟩
  · have hneg : -x ≥ 0.0 := (Extended.nonneg_or_nonneg_neg hx).resolve_left h
    refine ⟨1.0 - upperTail (-x), ?_⟩
    rw [N_succ_of_not_nonneg h, N_of_nonneg hneg]
    rfl

/-! ## The logarithm of spot over strike -/

/-- `S` and `K` are finite, of one sign, and neither is zero. -/
def PositiveRatio : Extended → Extended → Prop
  | .num s a, .num t b => s = t ∧ (a ≠ 0 ∧ a ≠ ⊤) ∧ b ≠ 0 ∧ b ≠ ⊤
  | _, _ => False

/-- `S` is zero and `K` is not, or `K` is infinite and `S` is not. -/
def ZeroRatio : Extended → Extended → Prop
  | .num _ a, .num _ b => a = 0 ∧ b ≠ 0 ∨ a ≠ ⊤ ∧ b = ⊤
  | _, _ => False

/-- `S` and `K` have one sign, and `K` is zero and `S` is not, or `S` is infinite and `K` is not. -/
def InfiniteRatio : Extended → Extended → Prop
  | .num s a, .num t b => s = t ∧ (a ≠ 0 ∧ b = 0 ∨ a = ⊤ ∧ b ≠ ⊤)
  | _, _ => False

variable {S K : Extended}

theorem log_positiveRatio (h : PositiveRatio S K) :
    Extended.log (S / K) = .ofReal (Real.log (S.val / K.val)) := by
  rcases S with ⟨s, a⟩ | _
  · rcases K with ⟨t, b⟩ | _
    · obtain ⟨rfl, ⟨ha, ha'⟩, hb, hb'⟩ := h
      have hzero : a / b ≠ 0 := by simp [ENNReal.div_eq_zero_iff, ha, hb']
      have htop : a / b ≠ ⊤ := by simp [ENNReal.div_eq_top, ha', hb]
      rw [Extended.num_div_num, if_neg (by simp [ha, ha'])]
      simp only [Extended.log, Bool.xor_self, if_neg hzero, if_neg htop, ENNReal.toReal_div]
      cases s <;> simp [val, neg_div_neg_eq]
    · exact h.elim
  · exact h.elim

theorem log_zeroRatio (h : ZeroRatio S K) : Extended.log (S / K) = negInf := by
  rcases S with ⟨s, a⟩ | _
  · rcases K with ⟨t, b⟩ | _
    · have hnum : ¬ (a = 0 ∧ b = 0 ∨ a = ⊤ ∧ b = ⊤) := by
        rcases h with ⟨rfl, hb⟩ | ⟨ha, rfl⟩ <;> simp [*]
      have hzero : a / b = 0 := by
        rcases h with ⟨rfl, hb⟩ | ⟨ha, rfl⟩ <;> simp
      rw [Extended.num_div_num, if_neg hnum, hzero]
      exact if_pos rfl
    · exact h.elim
  · exact h.elim

theorem log_infiniteRatio (h : InfiniteRatio S K) : Extended.log (S / K) = posInf := by
  rcases S with ⟨s, a⟩ | _
  · rcases K with ⟨t, b⟩ | _
    · obtain ⟨rfl, h⟩ := h
      have hnum : ¬ (a = 0 ∧ b = 0 ∨ a = ⊤ ∧ b = ⊤) := by
        rcases h with ⟨ha, rfl⟩ | ⟨rfl, hb⟩ <;> simp [*]
      have htop : a / b = ⊤ := ENNReal.div_eq_top.mpr h
      rw [Extended.num_div_num, if_neg hnum, htop]
      simp [Extended.log]
    · exact h.elim
  · exact h.elim

/-- In every other case there is no logarithm. -/
theorem log_eq_nan (hpos : ¬ PositiveRatio S K) (hzero : ¬ ZeroRatio S K)
    (hinf : ¬ InfiniteRatio S K) : Extended.log (S / K) = .nan := by
  rcases S with ⟨s, a⟩ | _
  · rcases K with ⟨t, b⟩ | _
    · by_cases hnum : a = 0 ∧ b = 0 ∨ a = ⊤ ∧ b = ⊤
      · rw [Extended.num_div_num, if_pos hnum]
        rfl
      · simp only [PositiveRatio, ZeroRatio, InfiniteRatio] at hpos hzero hinf
        have hne : s ≠ t := by tauto
        have hquot : a / b ≠ 0 := by
          rw [ne_eq, ENNReal.div_eq_zero_iff]
          tauto
        have hsign : (s ^^ t) = true := by
          cases s <;> cases t <;> simp at hne ⊢
        rw [Extended.num_div_num, if_neg hnum]
        simp [Extended.log, hquot, hsign]
    · rw [Extended.div_nan]
      rfl
  · rfl

theorem positiveRatio_ofReal {s k : ℝ} (hs : 0 < s) (hk : 0 < k) :
    PositiveRatio (.ofReal s) (.ofReal k) := by
  refine ⟨?_, ⟨?_, ENNReal.ofReal_ne_top⟩, ?_, ENNReal.ofReal_ne_top⟩
  · rw [decide_eq_false hs.not_gt, decide_eq_false hk.not_gt]
  · simpa using hs.ne'
  · simpa using hk.ne'

theorem PositiveRatio.val_pos (h : PositiveRatio S K) : 0 < S.val / K.val := by
  rcases S with ⟨s, a⟩ | _
  · rcases K with ⟨t, b⟩ | _
    · obtain ⟨rfl, ⟨ha, ha'⟩, hb, hb'⟩ := h
      have hquot := div_pos (ENNReal.toReal_pos ha ha') (ENNReal.toReal_pos hb hb')
      cases s <;> simpa [val, neg_div_neg_eq] using hquot
    · exact h.elim
  · exact h.elim

/-- Without volatility, or without time left, the numerator of `d_1` vanishes iff spot is the
discounted strike. -/
theorem numerator_eq_zero_iff {s k r sigma t : ℝ} (hpos : 0 < s / k) (h : sigma = 0 ∨ t = 0) :
    Real.log (s / k) + (r + sigma * sigma * 0.5) * t = 0 ↔ s = k * Real.exp (-r * t) := by
  have hk : k ≠ 0 := by
    rintro rfl
    simp at hpos
  have hdrift : (r + sigma * sigma * 0.5) * t = r * t := by
    rcases h with rfl | rfl <;> ring
  calc Real.log (s / k) + (r + sigma * sigma * 0.5) * t = 0
      ↔ Real.log (s / k) = -r * t := by
        rw [hdrift]
        constructor <;> intro h <;> linarith
    _ ↔ s / k = Real.exp (-r * t) :=
        ⟨fun h => by rw [← h, Real.exp_log hpos], fun h => by rw [h, Real.log_exp]⟩
    _ ↔ s = k * Real.exp (-r * t) := by rw [div_eq_iff hk, mul_comm]

namespace VanillaOption

/-! ## When `d_1` is a number -/

/-- **The parameters with prices**, one field for each way to a NaN. -/
structure Priceable (o : VanillaOption Extended) : Prop where
  maturity : o.T.IsFin ∧ 0 ≤ o.T.val
  volatility : o.sigma.IsFin
  rate : o.r ≠ .nan
  ratio : PositiveRatio o.S o.K ∨ ZeroRatio o.S o.K ∨ InfiniteRatio o.S o.K
  /-- No infinite rate over no time. -/
  growth : ¬ o.r.IsFin → 0 < o.T.val
  rise : o.r = posInf → ¬ ZeroRatio o.S o.K
  fall : o.r = negInf → ¬ InfiniteRatio o.S o.K
  /-- No `0 / 0`: without volatility or time, spot is not the discounted strike. -/
  forward : o.r.IsFin → PositiveRatio o.S o.K → o.sigma.val = 0 ∨ o.T.val = 0 →
    o.S.val ≠ o.K.val * Real.exp (-o.r.val * o.T.val)

variable {o : VanillaOption Extended}

/-- The summand of `d_1` that grows with time. -/
noncomputable def drift (o : VanillaOption Extended) : Extended :=
  (o.r + o.sigma * o.sigma * 0.5) * o.T

/-- What `d_1` divides by `sigma_sqrt_T`. -/
noncomputable def numerator (o : VanillaOption Extended) : Extended :=
  Extended.log (o.S / o.K) + o.drift

theorem d1_eq (o : VanillaOption Extended) : o.d1 = o.numerator / o.sigmaSqrtT := rfl

theorem sigmaSqrtT_eq (o : VanillaOption Extended) :
    o.sigmaSqrtT = o.sigma * Extended.sqrt o.T := rfl

/-- **Time to maturity and volatility are finite** where `d_1` is a number: else numerator and
denominator both are not. -/
theorem finite_of_d1 (h : o.d1 ≠ .nan) : o.T.IsFin ∧ o.sigma.IsFin := by
  constructor
  · by_contra hT
    have hdrift : ¬ o.drift.IsFin := Extended.not_isFin_mul_right hT
    have hden : ¬ o.sigmaSqrtT.IsFin :=
      Extended.not_isFin_mul_right (Extended.not_isFin_sqrt hT)
    exact h (Extended.div_eq_nan (Extended.not_isFin_add_right hdrift) hden)
  · by_contra hsigma
    have hsq : ¬ (o.sigma * o.sigma * 0.5).IsFin :=
      Extended.not_isFin_mul_left (Extended.not_isFin_mul_left hsigma)
    have hdrift : ¬ o.drift.IsFin :=
      Extended.not_isFin_mul_left (Extended.not_isFin_add_right hsq)
    have hden : ¬ o.sigmaSqrtT.IsFin := Extended.not_isFin_mul_left hsigma
    exact h (Extended.div_eq_nan (Extended.not_isFin_add_right hdrift) hden)

theorem maturity_of_d1 (h : o.d1 ≠ .nan) : o.T.IsFin ∧ 0 ≤ o.T.val := by
  obtain ⟨hT, -⟩ := finite_of_d1 h
  refine ⟨hT, not_lt.mp fun hneg => h ?_⟩
  rw [d1_eq, sigmaSqrtT_eq, (Extended.sqrt_eq_nan_iff hT).mpr hneg, Extended.mul_nan,
    Extended.div_nan]

theorem isFin_halfVariance (hsigma : o.sigma.IsFin) : (o.sigma * o.sigma * 0.5).IsFin :=
  Extended.isFin_mul (Extended.isFin_mul hsigma hsigma) (Extended.isFin_ofScientific _ _ _)

/-- Over time, an infinite rate carries all before it. -/
theorem drift_inf (hsigma : o.sigma.IsFin) {s : Bool} (hr : o.r = .num s ⊤) (ht : 0 < o.T.val) :
    o.drift = .num s ⊤ := by
  rw [drift, hr, Extended.inf_add (isFin_halfVariance hsigma), Extended.inf_mul ht]

section Finite

variable (hT : o.T.IsFin ∧ 0 ≤ o.T.val) (hsigma : o.sigma.IsFin)

include hT hsigma

theorem isFin_sigmaSqrtT : o.sigmaSqrtT.IsFin :=
  Extended.isFin_mul hsigma (Extended.sqrt_spec hT.1 hT.2).1

theorem val_sigmaSqrtT_eq_zero_iff :
    o.sigmaSqrtT.val = 0 ↔ o.sigma.val = 0 ∨ o.T.val = 0 := by
  rw [sigmaSqrtT_eq, Extended.val_mul hsigma (Extended.sqrt_spec hT.1 hT.2).1, mul_eq_zero,
    (Extended.sqrt_spec hT.1 hT.2).2]

theorem isFin_drift (hr : o.r.IsFin) : o.drift.IsFin :=
  Extended.isFin_mul (Extended.isFin_add hr (isFin_halfVariance hsigma)) hT.1

theorem val_drift (hr : o.r.IsFin) :
    o.drift.val = (o.r.val + o.sigma.val * o.sigma.val * 0.5) * o.T.val := by
  have hhalf := isFin_halfVariance hsigma
  have hsq := Extended.isFin_mul hsigma hsigma
  rw [drift, Extended.val_mul (Extended.isFin_add hr hhalf) hT.1, Extended.val_add hr hhalf,
    Extended.val_mul hsq (Extended.isFin_ofScientific _ _ _), Extended.val_mul hsigma hsigma,
    Extended.val_ofScientific]

theorem drift_inf_zero {s : Bool} (hr : o.r = .num s ⊤) (ht : o.T.val = 0) : o.drift = .nan := by
  rw [drift, hr, Extended.inf_add (isFin_halfVariance hsigma), Extended.inf_mul_zero hT.1 ht]

theorem isFin_numerator (hr : o.r.IsFin) (hratio : PositiveRatio o.S o.K) :
    o.numerator.IsFin := by
  rw [numerator, log_positiveRatio hratio]
  exact Extended.isFin_add (Extended.isFin_ofReal _) (isFin_drift hT hsigma hr)

theorem val_numerator (hr : o.r.IsFin) (hratio : PositiveRatio o.S o.K) :
    o.numerator.val = Real.log (o.S.val / o.K.val) +
      (o.r.val + o.sigma.val * o.sigma.val * 0.5) * o.T.val := by
  rw [numerator, log_positiveRatio hratio,
    Extended.val_add (Extended.isFin_ofReal _) (isFin_drift hT hsigma hr), Extended.val_ofReal,
    val_drift hT hsigma hr]

/-- `d_2` is a number with `d_1`. -/
theorem d2_ne_nan (h : o.d1 ≠ .nan) : o.d2 ≠ .nan := by
  have hneg : (-o.sigmaSqrtT).IsFin := Extended.isFin_neg_iff.mpr (isFin_sigmaSqrtT hT hsigma)
  exact fun hnan => h ((Extended.add_eq_nan_iff hneg).mp hnan)

end Finite

/-- An infinite numerator is one way to a number. -/
theorem d1_ne_nan_of_inf {s : Bool} (hden : o.sigmaSqrtT.IsFin) (hnum : o.numerator = .num s ⊤) :
    o.d1 ≠ .nan := by
  rw [d1_eq, ne_eq, Extended.div_eq_nan_iff hden, hnum]
  simp

theorem Priceable.d1_of_isFin (h : o.Priceable) (hr : o.r.IsFin) : o.d1 ≠ .nan := by
  have hT := h.maturity
  have hsigma := h.volatility
  have hden := isFin_sigmaSqrtT hT hsigma
  have hdrift := isFin_drift hT hsigma hr
  rcases h.ratio with hratio | hratio | hratio
  · rw [d1_eq, ne_eq, Extended.div_eq_nan_iff hden]
    rintro (hnan | ⟨-, hnum, hzero⟩)
    · exact (isFin_numerator hT hsigma hr hratio).ne_nan hnan
    · have hzero := (val_sigmaSqrtT_eq_zero_iff hT hsigma).mp hzero
      rw [val_numerator hT hsigma hr hratio] at hnum
      exact h.forward hr hratio hzero ((numerator_eq_zero_iff hratio.val_pos hzero).mp hnum)
  · exact d1_ne_nan_of_inf hden (by rw [numerator, log_zeroRatio hratio, Extended.inf_add hdrift])
  · exact d1_ne_nan_of_inf hden
      (by rw [numerator, log_infiniteRatio hratio, Extended.inf_add hdrift])

theorem Priceable.d1_of_inf (h : o.Priceable) {s : Bool} (hr : o.r = .num s ⊤) :
    o.d1 ≠ .nan := by
  have hden := isFin_sigmaSqrtT h.maturity h.volatility
  have hdrift := drift_inf h.volatility hr (h.growth (by rw [hr]; simp))
  rcases h.ratio with hratio | hratio | hratio
  · refine d1_ne_nan_of_inf (s := s) hden ?_
    rw [numerator, log_positiveRatio hratio, hdrift, Extended.add_comm,
      Extended.inf_add (Extended.isFin_ofReal _)]
  · cases s with
    | false => exact absurd hratio (h.rise hr)
    | true =>
      refine d1_ne_nan_of_inf (s := true) hden ?_
      rw [numerator, log_zeroRatio hratio, hdrift, Extended.num_add_num_same, top_add]
  · cases s with
    | false =>
      refine d1_ne_nan_of_inf (s := false) hden ?_
      rw [numerator, log_infiniteRatio hratio, hdrift, Extended.num_add_num_same, top_add]
    | true => exact absurd hratio (h.fall hr)

/-- **Priceable parameters are all there is to `d_1`.** -/
theorem Priceable.d1_ne_nan (h : o.Priceable) : o.d1 ≠ .nan := by
  by_cases hr : o.r.IsFin
  · exact h.d1_of_isFin hr
  · rcases Extended.eq_nan_or_exists_inf hr with hnan | ⟨s, hs⟩
    · exact absurd hnan h.rate
    · exact h.d1_of_inf hs

/-- **And all that is needed for it.** -/
theorem priceable_of_d1 (h : o.d1 ≠ .nan) : o.Priceable := by
  have hT := maturity_of_d1 h
  obtain ⟨-, hsigma⟩ := finite_of_d1 h
  have hden := isFin_sigmaSqrtT hT hsigma
  rw [d1_eq, ne_eq, Extended.div_eq_nan_iff hden, not_or] at h
  obtain ⟨hnum, hzero⟩ := h
  have hlog : Extended.log (o.S / o.K) ≠ .nan := fun hnan => hnum (by
    rw [numerator, hnan, Extended.nan_add])
  have hdrift : o.drift ≠ .nan := fun hnan => hnum (by rw [numerator, hnan, Extended.add_nan])
  have hrate : o.r ≠ .nan := fun hnan => hdrift (by
    rw [drift, hnan, Extended.nan_add, Extended.nan_mul])
  have hgrowth : ¬ o.r.IsFin → 0 < o.T.val := by
    intro hr
    refine lt_of_le_of_ne hT.2 fun ht => ?_
    rcases Extended.eq_nan_or_exists_inf hr with hnan | ⟨s, hs⟩
    · exact hrate hnan
    · exact hdrift (drift_inf_zero hT hsigma hs ht.symm)
  refine ⟨hT, hsigma, hrate, ?_, hgrowth, fun hpos hratio => ?_, fun hneg hratio => ?_,
    fun hr hratio hden hforward => ?_⟩
  · by_contra hnone
    push Not at hnone
    exact hlog (log_eq_nan hnone.1 hnone.2.1 hnone.2.2)
  · have ht := hgrowth (by rw [hpos]; simp)
    refine hnum ?_
    rw [numerator, log_zeroRatio hratio, drift_inf hsigma hpos ht, Extended.inf_add_inf (by decide)]
  · have ht := hgrowth (by rw [hneg]; simp)
    refine hnum ?_
    rw [numerator, log_infiniteRatio hratio, drift_inf hsigma hneg ht,
      Extended.inf_add_inf (by decide)]
  · refine hzero ⟨isFin_numerator hT hsigma hr hratio, ?_,
      (val_sigmaSqrtT_eq_zero_iff hT hsigma).mpr hden⟩
    rw [val_numerator hT hsigma hr hratio]
    exact (numerator_eq_zero_iff hratio.val_pos hden).mpr hforward

/-! ## When the pricers return -/

theorem prices_of_priceable (h : o.Priceable) :
    ∃ call put, o.calcCallPrice 1 = some call ∧ o.calcPutPrice 1 = some put := by
  have h1 := h.d1_ne_nan
  have h2 := d2_ne_nan h.maturity h.volatility h1
  obtain ⟨n1, hn1⟩ := exists_N h1
  obtain ⟨n2, hn2⟩ := exists_N h2
  obtain ⟨m1, hm1⟩ := exists_N fun hnan => h1 (Extended.neg_eq_nan_iff.mp hnan)
  obtain ⟨m2, hm2⟩ := exists_N fun hnan => h2 (Extended.neg_eq_nan_iff.mp hnan)
  have hcall : o.calcCallPrice 1 = some (o.S * n1 - o.K * exp (-o.r * o.T) * n2) := by
    rw [calcCallPrice, hn1, hn2]
    rfl
  have hput : o.calcPutPrice 1 = some (o.K * exp (-o.r * o.T) * m2 - o.S * m1) := by
    rw [calcPutPrice, hm2, hm1]
    rfl
  exact ⟨_, _, hcall, hput⟩

theorem no_prices (h : ¬ o.Priceable) (calls : ℕ) :
    o.calcCallPrice calls = none ∧ o.calcPutPrice calls = none := by
  have h1 : o.d1 = .nan := by
    by_contra hne
    exact h (priceable_of_d1 hne)
  have h2 : o.d2 = .nan := by
    rw [d2, h1]
    rfl
  rw [calcCallPrice, calcPutPrice, h1, h2, Extended.neg_nan, N_nan]
  exact ⟨rfl, rfl⟩

/-- **When the pricers return**: with at most one call of `N` to itself in each of its evaluations,
iff the parameters are priceable, and otherwise never. -/
theorem pricers_return_iff (o : VanillaOption Extended) :
    ((∃ call put, o.calcCallPrice 1 = some call ∧ o.calcPutPrice 1 = some put) ↔ o.Priceable) ∧
      ((∀ calls, o.calcCallPrice calls = none ∧ o.calcPutPrice calls = none) ↔ ¬ o.Priceable) := by
  have hcall : (∃ call put, o.calcCallPrice 1 = some call ∧ o.calcPutPrice 1 = some put) →
      o.Priceable := by
    rintro ⟨call, put, hcall, -⟩
    by_contra h
    rw [(no_prices h 1).1] at hcall
    exact absurd hcall (by simp)
  refine ⟨⟨hcall, prices_of_priceable⟩, fun hnone h => ?_, no_prices⟩
  obtain ⟨call, put, hret, -⟩ := prices_of_priceable h
  rw [(hnone 1).1] at hret
  exact absurd hret (by simp)

/-- The default option is priced. -/
theorem priceable_init : (init : VanillaOption Extended).Priceable where
  maturity := by
    refine ⟨Extended.isFin_ofScientific _ _ _, ?_⟩
    rw [init, Extended.val_ofScientific]
    norm_num
  volatility := Extended.isFin_ofScientific _ _ _
  rate := (Extended.isFin_ofScientific _ _ _).ne_nan
  ratio := Or.inl (positiveRatio_ofReal (by norm_num) (by norm_num))
  growth hr := absurd (Extended.isFin_ofScientific _ _ _) hr
  rise hr := absurd (hr ▸ Extended.isFin_ofScientific _ _ _ : posInf.IsFin) (by simp)
  fall hr := absurd (hr ▸ Extended.isFin_ofScientific _ _ _ : negInf.IsFin) (by simp)
  forward _ _ hden := by
    rw [init, Extended.val_ofScientific, Extended.val_ofScientific] at hden
    norm_num at hden

/-- An expired option at the money: the default but for `T`. -/
noncomputable def expired : VanillaOption Extended := { init with T := 0.0 }

/-- **An expired option at the money is never priced**: `d_1` is `0 / 0`. -/
theorem expired_never_priced :
    expired.d1 = .nan ∧
      ∀ calls, expired.calcCallPrice calls = none ∧ expired.calcPutPrice calls = none := by
  have h : ¬ expired.Priceable := fun h => by
    refine h.forward (Extended.isFin_ofScientific _ _ _)
      (positiveRatio_ofReal (by norm_num) (by norm_num)) (Or.inr ?_) ?_
    · rw [expired, Extended.val_ofScientific]
      norm_num
    · simp only [expired, init, Extended.val_ofScientific]
      norm_num
  exact ⟨not_not.mp fun hne => h (priceable_of_d1 hne), no_prices h⟩

end VanillaOption

end Mms
