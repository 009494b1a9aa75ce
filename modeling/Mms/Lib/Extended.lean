import Mathlib.Analysis.SpecialFunctions.Pow.NNReal
import Mathlib.Analysis.SpecialFunctions.Log.Basic

/-!
# Numbers with two zeros, two infinities and NaN

An `Extended` number is a sign and a magnitude in `[0, ∞]`, or NaN. The operations are those of
floating point without its rounding: exact where the result is a number, an infinity where it has
one as its limit, NaN where it has none.

* `IsFin`, `val`: the finite numbers and their values. Sum and product of finite numbers are finite
  and have the sum and the product as values (`add_spec`, `mul_spec`).
* A number that is not finite never turns finite again in a sum or a product (`not_isFin_add_left`,
  `not_isFin_mul_left` and their mirrors), and the quotient of two such numbers is NaN
  (`div_eq_nan`).
* `div_eq_nan_iff`: over a finite denominator only NaN and `0 / 0` give NaN.
* `nonneg_or_nonneg_neg`: a number or its negation is at least zero; for NaN neither is.
-/

namespace Mms.Lib

open ENNReal

/-- A sign and a magnitude, or NaN. -/
inductive Extended where
  | num (negative : Bool) (magnitude : ℝ≥0∞)
  | nan

namespace Extended

variable {x y z : Extended}

/-! ## Values -/

/-- The infinity above all numbers. -/
abbrev posInf : Extended := num false ⊤

/-- The infinity below all numbers. -/
abbrev negInf : Extended := num true ⊤

/-- A finite number. -/
def IsFin : Extended → Prop
  | num _ a => a ≠ ⊤
  | nan => False

/-- The value of a finite number. -/
noncomputable def val : Extended → ℝ
  | num negative a => if negative then -a.toReal else a.toReal
  | nan => 0

/-- The number of a given value. -/
noncomputable def ofReal (r : ℝ) : Extended := num (decide (r < 0)) (ENNReal.ofReal |r|)

@[simp] theorem isFin_num {s : Bool} {a : ℝ≥0∞} : (num s a).IsFin ↔ a ≠ ⊤ := Iff.rfl

@[simp] theorem not_isFin_nan : ¬ nan.IsFin := id

theorem isFin_ofReal (r : ℝ) : (ofReal r).IsFin := ENNReal.ofReal_ne_top

@[simp] theorem val_ofReal (r : ℝ) : (ofReal r).val = r := by
  simp only [ofReal, val, decide_eq_true_eq, ENNReal.toReal_ofReal (abs_nonneg r)]
  split
  · rw [abs_of_neg ‹_›, neg_neg]
  · exact abs_of_nonneg (not_lt.mp ‹_›)

theorem IsFin.ne_nan (h : x.IsFin) : x ≠ nan := by
  rintro rfl
  exact h

theorem IsFin.exists_num (h : x.IsFin) : ∃ s a, a ≠ ⊤ ∧ x = num s a := by
  rcases x with ⟨s, a⟩ | _
  · exact ⟨s, a, h, rfl⟩
  · exact h.elim

theorem eq_nan_or_exists_inf (h : ¬ x.IsFin) : x = nan ∨ ∃ s, x = num s ⊤ := by
  rcases x with ⟨s, a⟩ | _
  · exact Or.inr ⟨s, congrArg (num s) (not_not.mp h)⟩
  · exact Or.inl rfl

/-- A finite number is a zero of either sign iff its value is. -/
theorem val_num_eq_zero {s : Bool} {a : ℝ≥0∞} (ha : a ≠ ⊤) : (num s a).val = 0 ↔ a = 0 := by
  cases s <;> simp [val, ENNReal.toReal_eq_zero_iff, ha]

/-! ## Operations -/

noncomputable instance : OfScientific Extended where
  ofScientific m s e := ofReal (OfScientific.ofScientific m s e)

instance : Neg Extended where
  neg
    | num s a => num (!s) a
    | nan => nan

noncomputable instance : Add Extended where
  add
    | num s a, num t b =>
      if s = t then num s (a + b)
      else if a = ⊤ ∧ b = ⊤ then nan
      else if b < a then num s (a - b)
      else if a < b then num t (b - a)
      else num false 0
    | _, _ => nan

noncomputable instance : Sub Extended where
  sub x y := x + -y

noncomputable instance : Mul Extended where
  mul
    | num s a, num t b => if a = 0 ∧ b = ⊤ ∨ a = ⊤ ∧ b = 0 then nan else num (s ^^ t) (a * b)
    | _, _ => nan

noncomputable instance : Div Extended where
  div
    | num s a, num t b => if a = 0 ∧ b = 0 ∨ a = ⊤ ∧ b = ⊤ then nan else num (s ^^ t) (a / b)
    | _, _ => nan

/-- The exponential function: zero at minus infinity. -/
noncomputable def exp : Extended → Extended
  | num s a =>
    if a = ⊤ then num false (if s then 0 else ⊤) else ofReal (Real.exp (num s a).val)
  | nan => nan

/-- The logarithm: minus infinity at either zero, NaN below. -/
noncomputable def log : Extended → Extended
  | num s a =>
    if a = 0 then negInf
    else if s then nan
    else if a = ⊤ then posInf
    else ofReal (Real.log a.toReal)
  | nan => nan

/-- The square root: NaN below zero, and each zero is its own. -/
noncomputable def sqrt : Extended → Extended
  | num s a => if s = true ∧ a ≠ 0 then nan else num s (a ^ (1 / 2 : ℝ))
  | nan => nan

/-- The power of one half: as the root, but positive at minus zero and minus infinity. -/
noncomputable def powHalf : Extended → Extended
  | num s a => if s = true ∧ a ≠ 0 ∧ a ≠ ⊤ then nan else num false (a ^ (1 / 2 : ℝ))
  | nan => nan

/-- The order: the two zeros are equal, and NaN compares with nothing. -/
instance : LE Extended where
  le
    | num false a, num false b => a ≤ b
    | num false a, num true b => a = 0 ∧ b = 0
    | num true _, num false _ => True
    | num true a, num true b => b ≤ a
    | _, _ => False

noncomputable instance : DecidableLE Extended := fun x y => Classical.propDecidable (x ≤ y)

variable {s t : Bool} {a b : ℝ≥0∞}

theorem isFin_ofScientific (m : ℕ) (neg : Bool) (e : ℕ) :
    (OfScientific.ofScientific m neg e : Extended).IsFin := isFin_ofReal _

theorem val_ofScientific (m : ℕ) (neg : Bool) (e : ℕ) :
    (OfScientific.ofScientific m neg e : Extended).val = OfScientific.ofScientific m neg e :=
  val_ofReal _

@[simp] theorem neg_num : -num s a = num (!s) a := rfl

@[simp] theorem neg_nan : -nan = nan := rfl

theorem num_add_num : num s a + num t b =
    if s = t then num s (a + b)
    else if a = ⊤ ∧ b = ⊤ then nan
    else if b < a then num s (a - b)
    else if a < b then num t (b - a)
    else num false 0 := rfl

@[simp] theorem nan_add : nan + x = nan := rfl

@[simp] theorem add_nan : x + nan = nan := by cases x <;> rfl

theorem num_mul_num : num s a * num t b =
    if a = 0 ∧ b = ⊤ ∨ a = ⊤ ∧ b = 0 then nan else num (s ^^ t) (a * b) := rfl

@[simp] theorem nan_mul : nan * x = nan := rfl

@[simp] theorem mul_nan : x * nan = nan := by cases x <;> rfl

theorem num_div_num : num s a / num t b =
    if a = 0 ∧ b = 0 ∨ a = ⊤ ∧ b = ⊤ then nan else num (s ^^ t) (a / b) := rfl

@[simp] theorem nan_div : nan / x = nan := rfl

@[simp] theorem div_nan : x / nan = nan := by cases x <;> rfl

theorem sqrt_num : sqrt (num s a) = if s = true ∧ a ≠ 0 then nan else num s (a ^ (1 / 2 : ℝ)) := rfl

theorem neg_eq_nan_iff : -x = nan ↔ x = nan := by cases x <;> simp

theorem isFin_neg_iff : (-x).IsFin ↔ x.IsFin := by cases x <;> simp

@[simp] theorem val_neg : (-x).val = -x.val := by
  rcases x with ⟨s, a⟩ | _
  · cases s <;> simp [val]
  · simp [val]

/-! ## Finite numbers -/

theorem num_add_num_same : num s a + num s b = num s (a + b) := if_pos rfl

/-- Numbers of opposite signs, the first of the larger magnitude. -/
theorem num_add_num_of_lt (hst : s ≠ t) (h : b < a) : num s a + num t b = num s (a - b) := by
  have hfin : ¬ (a = ⊤ ∧ b = ⊤) := fun hc => h.ne_top hc.2
  rw [num_add_num, if_neg hst, if_neg hfin, if_pos h]

/-- Numbers of opposite signs, the second of the larger magnitude. -/
theorem num_add_num_of_gt (hst : s ≠ t) (h : a < b) : num s a + num t b = num t (b - a) := by
  have hfin : ¬ (a = ⊤ ∧ b = ⊤) := fun hc => h.ne_top hc.1
  rw [num_add_num, if_neg hst, if_neg hfin, if_neg h.not_gt, if_pos h]

/-- Opposite finite numbers cancel. -/
theorem num_add_num_cancel (hst : s ≠ t) (ha : a ≠ ⊤) : num s a + num t a = num false 0 := by
  rw [num_add_num, if_neg hst, if_neg fun hc => ha hc.1, if_neg (lt_irrefl a),
    if_neg (lt_irrefl a)]

theorem val_eq_neg_of_ne (hst : s ≠ t) : (num t a).val = -(num s a).val := by
  rw [← val_neg, neg_num, Bool.eq_not_of_ne hst, Bool.not_not]

theorem val_sub_magnitude (ha : a ≠ ⊤) (h : b ≤ a) :
    (num s (a - b)).val = (num s a).val - (num s b).val := by
  cases s
  · simp [val, ENNReal.toReal_sub_of_le h ha]
  · simp only [val, ENNReal.toReal_sub_of_le h ha, if_true]
    ring

/-- **The sum of finite numbers** is finite, and the sum of their values. -/
theorem add_spec (hx : x.IsFin) (hy : y.IsFin) :
    (x + y).IsFin ∧ (x + y).val = x.val + y.val := by
  obtain ⟨s, a, ha, rfl⟩ := hx.exists_num
  obtain ⟨t, b, hb, rfl⟩ := hy.exists_num
  rcases eq_or_ne s t with rfl | hst
  · rw [num_add_num_same]
    refine ⟨ENNReal.add_ne_top.mpr ⟨ha, hb⟩, ?_⟩
    cases s <;> simp [val, ENNReal.toReal_add ha hb, add_comm]
  rcases lt_trichotomy a b with h | rfl | h
  · rw [num_add_num_of_gt hst h, val_sub_magnitude hb h.le, val_eq_neg_of_ne hst.symm]
    exact ⟨ENNReal.sub_ne_top hb, by ring⟩
  · rw [num_add_num_cancel hst ha, val_eq_neg_of_ne hst]
    exact ⟨ENNReal.zero_ne_top, by simp [val]⟩
  · rw [num_add_num_of_lt hst h, val_sub_magnitude ha h.le, val_eq_neg_of_ne hst]
    exact ⟨ENNReal.sub_ne_top ha, by ring⟩

theorem isFin_add (hx : x.IsFin) (hy : y.IsFin) : (x + y).IsFin := (add_spec hx hy).1

theorem val_add (hx : x.IsFin) (hy : y.IsFin) : (x + y).val = x.val + y.val := (add_spec hx hy).2

/-- **The product of finite numbers** is finite, and the product of their values. -/
theorem mul_spec (hx : x.IsFin) (hy : y.IsFin) :
    (x * y).IsFin ∧ (x * y).val = x.val * y.val := by
  obtain ⟨s, a, ha, rfl⟩ := hx.exists_num
  obtain ⟨t, b, hb, rfl⟩ := hy.exists_num
  have hprod : num s a * num t b = num (s ^^ t) (a * b) := by
    rw [num_mul_num, if_neg]
    rintro (h | h)
    · exact hb h.2
    · exact ha h.1
  rw [hprod]
  refine ⟨ENNReal.mul_ne_top ha hb, ?_⟩
  cases s <;> cases t <;> simp [val]

theorem isFin_mul (hx : x.IsFin) (hy : y.IsFin) : (x * y).IsFin := (mul_spec hx hy).1

theorem val_mul (hx : x.IsFin) (hy : y.IsFin) : (x * y).val = x.val * y.val := (mul_spec hx hy).2

/-- Under the root, only what is below zero gives NaN. -/
theorem sqrt_eq_nan_iff (hx : x.IsFin) : sqrt x = nan ↔ x.val < 0 := by
  obtain ⟨s, a, ha, rfl⟩ := hx.exists_num
  rw [sqrt_num]
  cases s
  · simp [val]
  · by_cases h0 : a = 0
    · simp [h0, val]
    · simp [h0, val, ENNReal.toReal_pos h0 ha]

/-- **The root of a finite number** not below zero is finite, and zero with it. -/
theorem sqrt_spec (hx : x.IsFin) (h0 : 0 ≤ x.val) :
    (sqrt x).IsFin ∧ ((sqrt x).val = 0 ↔ x.val = 0) := by
  have hne : sqrt x ≠ nan := fun h => absurd ((sqrt_eq_nan_iff hx).mp h) (not_lt.mpr h0)
  obtain ⟨s, a, ha, rfl⟩ := hx.exists_num
  rw [sqrt_num] at hne ⊢
  split at hne
  · exact absurd rfl hne
  · have hroot : a ^ (1 / 2 : ℝ) ≠ ⊤ := ENNReal.rpow_ne_top_of_nonneg (by norm_num) ha
    rw [if_neg ‹_›, isFin_num, val_num_eq_zero hroot, val_num_eq_zero ha]
    exact ⟨hroot, by simp [ENNReal.rpow_eq_zero_iff, ha]⟩

/-! ## Numbers that are not finite -/

theorem inf_add (hy : y.IsFin) : num s ⊤ + y = num s ⊤ := by
  obtain ⟨t, b, hb, rfl⟩ := hy.exists_num
  rcases eq_or_ne s t with rfl | hst
  · rw [num_add_num_same, top_add]
  · rw [num_add_num_of_lt hst (lt_top_iff_ne_top.mpr hb), ENNReal.top_sub hb]

/-- Opposite infinities have no sum. -/
theorem inf_add_inf (hst : s ≠ t) : num s ⊤ + num t ⊤ = nan := by
  rw [num_add_num, if_neg hst, if_pos ⟨rfl, rfl⟩]

theorem inf_mul (hy : 0 < y.val) : num s ⊤ * y = num s ⊤ := by
  rcases y with ⟨t, b⟩ | _
  · cases t
    · have hb : b ≠ 0 := by
        rintro rfl
        simp [val] at hy
      rw [num_mul_num, if_neg (by simp [hb]), ENNReal.top_mul hb, Bool.xor_false]
    · exact absurd hy (not_lt.mpr (by simp [val]))
  · exact absurd hy (lt_irrefl 0)

/-- Infinity times zero has no value. -/
theorem inf_mul_zero (hy : y.IsFin) (h0 : y.val = 0) : num s ⊤ * y = nan := by
  obtain ⟨t, b, hb, rfl⟩ := hy.exists_num
  rw [num_mul_num, if_pos (Or.inr ⟨rfl, (val_num_eq_zero hb).mp h0⟩)]

theorem not_isFin_add_left (hx : ¬ x.IsFin) : ¬ (x + y).IsFin := by
  rcases eq_nan_or_exists_inf hx with rfl | ⟨s, rfl⟩
  · exact not_isFin_nan
  · by_cases hy : y.IsFin
    · rwa [inf_add hy]
    · rcases eq_nan_or_exists_inf hy with rfl | ⟨t, rfl⟩
      · rw [add_nan]
        exact not_isFin_nan
      · rcases eq_or_ne s t with rfl | hst
        · rwa [num_add_num_same, top_add]
        · rw [inf_add_inf hst]
          exact not_isFin_nan

protected theorem add_comm : x + y = y + x := by
  rcases x with ⟨s, a⟩ | _
  · rcases y with ⟨t, b⟩ | _
    · rcases eq_or_ne s t with rfl | hst
      · rw [num_add_num_same, num_add_num_same, add_comm]
      rcases lt_trichotomy a b with h | rfl | h
      · rw [num_add_num_of_gt hst h, num_add_num_of_lt hst.symm h]
      · rw [num_add_num, num_add_num, if_neg hst, if_neg hst.symm]
        simp
      · rw [num_add_num_of_lt hst h, num_add_num_of_gt hst.symm h]
    · simp
  · simp

theorem not_isFin_add_right (hy : ¬ y.IsFin) : ¬ (x + y).IsFin := by
  rw [Extended.add_comm]
  exact not_isFin_add_left hy

/-- Beside a finite number only NaN gives NaN. -/
theorem add_eq_nan_iff (hy : y.IsFin) : x + y = nan ↔ x = nan := by
  by_cases hx : x.IsFin
  · exact iff_of_false (isFin_add hx hy).ne_nan hx.ne_nan
  · rcases eq_nan_or_exists_inf hx with rfl | ⟨s, rfl⟩
    · rw [nan_add]
    · rw [inf_add hy]

theorem not_isFin_mul_left (hx : ¬ x.IsFin) : ¬ (x * y).IsFin := by
  rcases eq_nan_or_exists_inf hx with rfl | ⟨s, rfl⟩
  · exact not_isFin_nan
  · rcases y with ⟨t, b⟩ | _
    · rw [num_mul_num]
      by_cases hb : b = 0
      · simp [hb]
      · simp [hb, ENNReal.top_mul hb]
    · rw [mul_nan]
      exact not_isFin_nan

protected theorem mul_comm : x * y = y * x := by
  rcases x with ⟨s, a⟩ | _
  · rcases y with ⟨t, b⟩ | _
    · have hcond : a = 0 ∧ b = ⊤ ∨ a = ⊤ ∧ b = 0 ↔ b = 0 ∧ a = ⊤ ∨ b = ⊤ ∧ a = 0 := by tauto
      rw [num_mul_num, num_mul_num, if_congr hcond rfl rfl, mul_comm a, Bool.xor_comm]
    · simp
  · simp

theorem not_isFin_mul_right (hy : ¬ y.IsFin) : ¬ (x * y).IsFin := by
  rw [Extended.mul_comm]
  exact not_isFin_mul_left hy

theorem not_isFin_sqrt (hx : ¬ x.IsFin) : ¬ (sqrt x).IsFin := by
  rcases eq_nan_or_exists_inf hx with rfl | ⟨s, rfl⟩
  · exact not_isFin_nan
  · cases s <;> simp [sqrt]

/-- **A quotient of numbers that are not finite** is NaN. -/
theorem div_eq_nan (hx : ¬ x.IsFin) (hy : ¬ y.IsFin) : x / y = nan := by
  rcases eq_nan_or_exists_inf hx with rfl | ⟨s, rfl⟩
  · exact nan_div
  · rcases eq_nan_or_exists_inf hy with rfl | ⟨t, rfl⟩
    · exact div_nan
    · rw [num_div_num, if_pos (Or.inr ⟨rfl, rfl⟩)]

/-- **Over a finite denominator** only NaN and `0 / 0` give NaN. -/
theorem div_eq_nan_iff (hy : y.IsFin) :
    x / y = nan ↔ x = nan ∨ x.IsFin ∧ x.val = 0 ∧ y.val = 0 := by
  obtain ⟨t, b, hb, rfl⟩ := hy.exists_num
  rcases x with ⟨s, a⟩ | _
  · rw [num_div_num, val_num_eq_zero hb, isFin_num]
    by_cases ha : a = ⊤
    · simp [ha, hb]
    · simp [ha, hb, val_num_eq_zero ha]
  · simp

/-! ## Comparison with zero -/

theorem zero_lit : (0.0 : Extended) = num false 0 := by
  have hzero : (OfScientific.ofScientific 0 true 1 : ℝ) = 0 := by norm_num
  change ofReal (OfScientific.ofScientific 0 true 1) = num false 0
  rw [hzero]
  simp [ofReal]

theorem num_le_num : num false a ≤ num false b ↔ a ≤ b := Iff.rfl

/-- **A number or its negation is at least zero.** -/
theorem nonneg_or_nonneg_neg (hx : x ≠ nan) : (0.0 : Extended) ≤ x ∨ (0.0 : Extended) ≤ -x := by
  rw [zero_lit]
  rcases x with ⟨s, a⟩ | _
  · cases s
    · exact Or.inl (num_le_num.mpr zero_le)
    · exact Or.inr (num_le_num.mpr zero_le)
  · exact absurd rfl hx

theorem not_nonneg_nan : ¬ (0.0 : Extended) ≤ nan := by
  rw [zero_lit]
  exact id

end Extended

end Mms.Lib
