import Mathlib.Algebra.GroupWithZero.Nat
import Mathlib.Data.List.Basic
import Mathlib.Order.Basic

/-!
# Sweeping a quantity out of a list of lots

A lot is a thing with a quantity some of which can be taken off (`Lot`). `sweep ok q l` takes up to
`q` units from the lots of `l`, front first, stopping at the first lot that is not `ok`: the lots
taken whole, what is left of the list, and the units that found no counterpart.

The theory is about lists in which the `ok` lots come first (`Front ok l`), as in a list sorted by
a rank when `ok` is a threshold on the rank.

* `sweep_left`: the units left over are `q - total ok l`, exactly.
* `sweep_split`: the lots taken whole are a prefix, and past it at most the head is reduced.
* `sweep_mem_filled`: what stands before a touched lot is taken whole.
* `sweep_rest_of_left_pos`: when units are left over, every `ok` lot is gone.
* `sweep_total`: what is taken off the list is what is taken off `q`.
* `sweep_add`: a sweep for `m + n` units is a sweep for `m` and one for `n` after it.
* `sweep_filter`: lots that are not `ok` can be taken out before the sweep or after it.
* `sweep_image`: a map that keeps quantities and what is `ok` commutes with the sweep.
* `takes ok q l` is how many units the sweep takes from which lot: `q` less the units left over in
  all (`takes_sum`), and of the lots of a kind what these lose (`takes_total`).
-/

namespace Mms.Lib

/-- A thing with a quantity that can be reduced. -/
class Lot (α : Type*) where
  qty : α → ℕ
  reduce : α → ℕ → α
  /-- Taking off at most the quantity takes off exactly that. -/
  qty_reduce : ∀ p n, n ≤ qty p → qty (reduce p n) = qty p - n

open Lot

/-- What a sweep leaves: the lots taken whole, the remaining list, and the unmatched units. -/
structure Sweep (α : Type*) where
  filled : List α
  rest : List α
  left : ℕ

variable {α β : Type*} [Lot α] {ok : α → Bool} {q : ℕ} {l : List α}

/-- Take up to `q` units from the `ok` lots at the front of the list. -/
def sweep (ok : α → Bool) : ℕ → List α → Sweep α
  | q, [] => ⟨[], [], q⟩
  | q, p :: ps =>
    if ok p = false ∨ q = 0 then ⟨[], p :: ps, q⟩
    else if qty p ≤ q then
      ⟨p :: (sweep ok (q - qty p) ps).filled, (sweep ok (q - qty p) ps).rest,
        (sweep ok (q - qty p) ps).left⟩
    else ⟨[], reduce p q :: ps, 0⟩

/-- Units held by the `ok` lots. -/
def total (ok : α → Bool) (l : List α) : ℕ := ((l.filter ok).map qty).sum

/-- The `ok` lots come first. -/
def Front (ok : α → Bool) (l : List α) : Prop := l.Pairwise fun x y => ok y = true → ok x = true

/-! ## The three ways a sweep goes on at a lot -/

theorem sweep_stop {p : α} {ps : List α} (h : ok p = false ∨ q = 0) :
    sweep ok q (p :: ps) = ⟨[], p :: ps, q⟩ := by
  rw [sweep, if_pos h]

theorem sweep_take {p : α} {ps : List α} (hok : ok p = true) (hq : q ≠ 0) (hle : qty p ≤ q) :
    sweep ok q (p :: ps) = ⟨p :: (sweep ok (q - qty p) ps).filled,
      (sweep ok (q - qty p) ps).rest, (sweep ok (q - qty p) ps).left⟩ := by
  rw [sweep, if_neg (by simp [hok, hq]), if_pos hle]

theorem sweep_reduce {p : α} {ps : List α} (hok : ok p = true) (hq : q ≠ 0) (hlt : q < qty p) :
    sweep ok q (p :: ps) = ⟨[], reduce p q :: ps, 0⟩ := by
  rw [sweep, if_neg (by simp [hok, hq]), if_neg (by omega)]

theorem sweep_zero (l : List α) : sweep ok 0 l = ⟨[], l, 0⟩ := by
  cases l with
  | nil => rfl
  | cons p ps => exact sweep_stop (Or.inr rfl)

theorem sweep_none (h : ∀ p ∈ l, ok p = false) : sweep ok q l = ⟨[], l, q⟩ := by
  cases l with
  | nil => rfl
  | cons p ps => exact sweep_stop (Or.inl (h p List.mem_cons_self))

/-! ## Totals -/

@[simp] theorem total_nil : total ok ([] : List α) = 0 := rfl

theorem total_cons (p : α) (ps : List α) :
    total ok (p :: ps) = (if ok p = true then qty p else 0) + total ok ps := by
  unfold total
  by_cases h : ok p = true
  · rw [List.filter_cons_of_pos h, if_pos h, List.map_cons, List.sum_cons]
  · rw [List.filter_cons_of_neg h, if_neg h, Nat.zero_add]

theorem total_eq_zero (h : ∀ p ∈ l, ok p = false) : total ok l = 0 := by
  unfold total
  rw [List.filter_eq_nil_iff.mpr fun p hp => by simp [h p hp]]
  rfl

theorem total_append (l l' : List α) : total ok (l ++ l') = total ok l + total ok l' := by
  unfold total
  rw [List.filter_append, List.map_append, List.sum_append]

/-- The units of a list are those of two parts of it. -/
theorem total_filter_add (ok keep : α → Bool) (l : List α) :
    total ok l = total ok (l.filter keep) + total ok (l.filter fun p => !keep p) := by
  induction l with
  | nil => rfl
  | cons p ps ih =>
    cases hk : keep p with
    | true =>
      rw [List.filter_cons_of_pos hk, List.filter_cons_of_neg (by simp [hk]), total_cons,
        total_cons, ih, Nat.add_assoc]
    | false =>
      rw [List.filter_cons_of_neg (by simp [hk]), List.filter_cons_of_pos (by simp [hk]),
        total_cons, total_cons, ih, Nat.add_left_comm]

theorem total_perm {l' : List α} (h : l.Perm l') : total ok l = total ok l' :=
  ((h.filter ok).map qty).sum_nat

omit [Lot α] in
/-- Past a lot that is not `ok` nothing is. -/
theorem Front.all_false {p : α} {ps : List α} (hf : Front ok (p :: ps)) (hp : ok p = false) :
    ∀ x ∈ p :: ps, ok x = false := by
  intro x hx
  rcases List.mem_cons.mp hx with rfl | hx
  · exact hp
  · cases h : ok x with
    | false => rfl
    | true => rw [(List.pairwise_cons.mp hf).1 x hx h] at hp; exact absurd hp (by simp)

omit [Lot α] in
theorem Front.tail {p : α} {ps : List α} (hf : Front ok (p :: ps)) : Front ok ps :=
  (List.pairwise_cons.mp hf).2

/-- **The units left over**: the sweep takes `min q (total ok l)`. -/
theorem sweep_left (hf : Front ok l) : (sweep ok q l).left = q - total ok l := by
  induction l generalizing q with
  | nil => simp [sweep]
  | cons p ps ih =>
    by_cases hok : ok p = true
    · rw [total_cons, if_pos hok]
      by_cases hq : q = 0
      · subst hq
        rw [sweep_zero, Nat.zero_sub]
      · by_cases hle : qty p ≤ q
        · rw [sweep_take hok hq hle, ih hf.tail]
          omega
        · rw [sweep_reduce hok hq (by omega)]
          simp only
          omega
    · have hall := hf.all_false (by simpa using hok)
      rw [sweep_none hall, total_eq_zero hall, Nat.sub_zero]

theorem sweep_left_le (ok : α → Bool) (q : ℕ) (l : List α) : (sweep ok q l).left ≤ q := by
  induction l generalizing q with
  | nil => simp [sweep]
  | cons p ps ih =>
    unfold sweep
    split
    · exact Nat.le_refl q
    · split
      · have := ih (q - qty p)
        simp only
        omega
      · exact Nat.zero_le _

/-! ## What the sweep does to the list -/

/-- How the rest relates to the list past the lots taken whole: unchanged, or its head reduced. -/
def Reduced (ok : α → Bool) (tail rest : List α) : Prop :=
  rest = tail ∨ ∃ p ps n, tail = p :: ps ∧ rest = reduce p n :: ps ∧ ok p = true ∧ 0 < n ∧ n < qty p

/-- **A prefix is taken whole, and at most the next lot is reduced.** -/
theorem sweep_split (ok : α → Bool) (q : ℕ) (l : List α) :
    ∃ tail, l = (sweep ok q l).filled ++ tail ∧ Reduced ok tail (sweep ok q l).rest := by
  induction l generalizing q with
  | nil => exact ⟨[], rfl, Or.inl rfl⟩
  | cons p ps ih =>
    by_cases hstop : ok p = false ∨ q = 0
    · rw [sweep_stop hstop]
      exact ⟨p :: ps, rfl, Or.inl rfl⟩
    · rw [not_or, Bool.not_eq_false] at hstop
      obtain ⟨hok, hq⟩ := hstop
      by_cases hle : qty p ≤ q
      · rw [sweep_take hok hq hle]
        obtain ⟨tail, hsplit, hred⟩ := ih (q - qty p)
        exact ⟨tail, by rw [List.cons_append, ← hsplit], hred⟩
      · rw [sweep_reduce hok hq (by omega)]
        exact ⟨p :: ps, rfl, Or.inr ⟨p, ps, q, rfl, rfl, hok, by omega, by omega⟩⟩

/-- **When units are left over, every `ok` lot is taken whole** and the others stay. -/
theorem sweep_rest_of_left_pos (hf : Front ok l) (hl : 0 < (sweep ok q l).left) :
    (sweep ok q l).filled = l.filter ok ∧ (sweep ok q l).rest = l.filter fun p => !ok p := by
  induction l generalizing q with
  | nil => exact ⟨rfl, rfl⟩
  | cons p ps ih =>
    by_cases hok : ok p = true
    · by_cases hq : q = 0
      · subst hq
        rw [sweep_zero] at hl
        exact absurd hl (Nat.lt_irrefl _)
      · by_cases hle : qty p ≤ q
        · rw [sweep_take hok hq hle] at hl ⊢
          obtain ⟨h1, h2⟩ := ih hf.tail hl
          simp only [h1, h2]
          rw [List.filter_cons_of_pos hok, List.filter_cons_of_neg (by simp [hok])]
          exact ⟨rfl, rfl⟩
        · rw [sweep_reduce hok hq (by omega)] at hl
          exact absurd hl (Nat.lt_irrefl _)
    · have hall := hf.all_false (by simpa using hok)
      rw [sweep_none hall]
      refine ⟨(List.filter_eq_nil_iff.mpr fun x hx => by simp [hall x hx]).symm, ?_⟩
      exact (List.filter_eq_self.mpr fun x hx => by simp [hall x hx]).symm

/-- A field no reduction touches reads the same along the whole list. -/
theorem sweep_map {f : α → β} (hf : ∀ p n, f (reduce p n) = f p) (ok : α → Bool) (q : ℕ)
    (l : List α) : (sweep ok q l).filled.map f ++ (sweep ok q l).rest.map f = l.map f := by
  obtain ⟨tail, hl, hred⟩ := sweep_split ok q l
  have hrest : (sweep ok q l).rest.map f = tail.map f := by
    rcases hred with h | ⟨p, ps, n, rfl, h, -⟩
    · rw [h]
    · rw [h, List.map_cons, List.map_cons, hf]
  rw [hrest, ← List.map_append, ← hl]

/-- **Priority.** In a list ordered by `R`, a lot that stands before a touched one is taken
whole. -/
theorem sweep_mem_filled {R : α → α → Prop} (hp : l.Pairwise R) {x y : α} (hx : x ∈ l)
    (hxr : x ∉ (sweep ok q l).rest) (hy : y ∈ l) (hne : y ≠ x) (hR : ¬ R x y) :
    y ∈ (sweep ok q l).filled := by
  obtain ⟨tail, hl, hred⟩ := sweep_split ok q l
  rw [hl] at hx hy hp
  obtain ⟨-, htail, hcross⟩ := List.pairwise_append.mp hp
  rcases List.mem_append.mp hy with hy | hy
  · exact hy
  · exfalso
    rcases List.mem_append.mp hx with hx | hx
    · exact hR (hcross x hx y hy)
    · rcases hred with hr | ⟨p, ps, n, rfl, hr, -⟩
      · exact hxr (hr ▸ hx)
      · -- the touched lot can only be the reduced one, at the head of the rest
        have hxp : x = p := by
          rcases List.mem_cons.mp hx with hx | hx
          · exact hx
          · exact absurd (hr ▸ List.mem_cons_of_mem _ hx) hxr
        subst hxp
        rcases List.mem_cons.mp hy with hy | hy
        · exact hne hy
        · exact hR ((List.pairwise_cons.mp htail).1 y hy)

/-- **A sweep in two parts.** The second part finds the head as the first one reduced it, so the
lots taken whole are the same up to their quantities. -/
theorem sweep_add {f : α → β} (hf : ∀ p n, f (reduce p n) = f p)
    (hok : ∀ p n, ok (reduce p n) = ok p)
    (hadd : ∀ (p : α) m n, reduce (reduce p m) n = reduce p (m + n)) (m n : ℕ) (l : List α) :
    (sweep ok (m + n) l).filled.map f =
      (sweep ok m l).filled.map f ++ (sweep ok n (sweep ok m l).rest).filled.map f ∧
    (sweep ok (m + n) l).rest = (sweep ok n (sweep ok m l).rest).rest ∧
    (sweep ok (m + n) l).left = (sweep ok m l).left + (sweep ok n (sweep ok m l).rest).left := by
  induction l generalizing m with
  | nil => simp [sweep]
  | cons p ps ih =>
    cases hp : ok p with
    | false =>
      have hstop : ∀ q, sweep ok q (p :: ps) = ⟨[], p :: ps, q⟩ := fun q => sweep_stop (Or.inl hp)
      simp [hstop]
    | true =>
      by_cases hm : m = 0
      · subst hm
        simp [sweep_zero]
      · by_cases hle : qty p ≤ m
        · obtain ⟨h1, h2, h3⟩ := ih (m - qty p)
          have hsub : m + n - qty p = m - qty p + n := by omega
          rw [sweep_take hp hm hle, sweep_take hp (by omega) (by omega), hsub]
          simp only [List.map_cons, List.cons_append, h1, h2, h3, and_self]
        · -- the first part ends inside `p`
          rw [sweep_reduce hp hm (by omega)]
          have hp' : ok (reduce p m) = true := (hok p m).trans hp
          have hq : qty (reduce p m) = qty p - m := qty_reduce p m (by omega)
          by_cases hn : n = 0
          · subst hn
            simp [sweep_zero, sweep_reduce hp hm (by omega)]
          · by_cases hle2 : qty p ≤ m + n
            · have hsub : n - qty (reduce p m) = m + n - qty p := by omega
              rw [sweep_take hp (by omega) hle2, sweep_take hp' hn (by omega), hsub]
              simp [hf]
            · rw [sweep_reduce hp (by omega) (by omega), sweep_reduce hp' hn (by omega), hadd]
              simp

/-- **Lots that are not `ok` do not matter**: the sweep of the others is the same. -/
theorem sweep_filter {keep : α → Bool} (hf : Front ok l) (hk : ∀ p ∈ l, ok p = true → keep p = true)
    (hr : ∀ p n, keep (reduce p n) = keep p) :
    sweep ok q (l.filter keep) =
      ⟨(sweep ok q l).filled, (sweep ok q l).rest.filter keep, (sweep ok q l).left⟩ := by
  induction l generalizing q with
  | nil => rfl
  | cons p ps ih =>
    cases hp : ok p with
    | false =>
      have hall := hf.all_false hp
      rw [sweep_none hall, sweep_none fun x hx => hall x (List.mem_filter.mp hx).1]
    | true =>
      have hkeep := hk p List.mem_cons_self hp
      rw [List.filter_cons_of_pos hkeep]
      by_cases hq : q = 0
      · subst hq
        rw [sweep_zero, sweep_zero, List.filter_cons_of_pos hkeep]
      · by_cases hle : qty p ≤ q
        · rw [sweep_take hp hq hle, sweep_take hp hq hle,
            ih hf.tail fun x hx => hk x (List.mem_cons_of_mem _ hx)]
        · rw [sweep_reduce hp hq (by omega), sweep_reduce hp hq (by omega),
            List.filter_cons_of_pos ((hr p q).trans hkeep)]

/-- **When two lots are taken whole**: the first two are `ok`, and together within `q`. -/
theorem sweep_two (hpos : ∀ p ∈ l, 0 < qty p) :
    2 ≤ (sweep ok q l).filled.length ↔
      ∃ x y ps, l = x :: y :: ps ∧ ok x = true ∧ ok y = true ∧ qty x + qty y ≤ q := by
  constructor
  · intro h2
    cases l with
    | nil => exact absurd h2 (by simp [sweep])
    | cons x ps =>
      by_cases hx : ok x = false ∨ q = 0
      · rw [sweep_stop hx] at h2
        exact absurd h2 (by simp)
      rw [not_or, Bool.not_eq_false] at hx
      by_cases hxq : qty x ≤ q
      · rw [sweep_take hx.1 hx.2 hxq] at h2
        cases ps with
        | nil => exact absurd h2 (by simp [sweep])
        | cons y ps =>
          by_cases hy : ok y = false ∨ q - qty x = 0
          · rw [sweep_stop hy] at h2
            exact absurd h2 (by simp)
          rw [not_or, Bool.not_eq_false] at hy
          by_cases hyq : qty y ≤ q - qty x
          · exact ⟨x, y, ps, rfl, hx.1, hy.1, by omega⟩
          · rw [sweep_reduce hy.1 hy.2 (by omega)] at h2
            exact absurd h2 (by simp)
      · rw [sweep_reduce hx.1 hx.2 (by omega)] at h2
        exact absurd h2 (by simp)
  · rintro ⟨x, y, ps, rfl, hx, hy, hle⟩
    have hxpos := hpos x List.mem_cons_self
    have hypos := hpos y (List.mem_cons_of_mem _ List.mem_cons_self)
    rw [sweep_take hx (by omega) (by omega), sweep_take hy (by omega) (by omega)]
    simp

/-- **A lot that is not `ok` stays.** -/
theorem sweep_mem_rest {x : α} (hx : x ∈ l) (hok : ok x = false) : x ∈ (sweep ok q l).rest := by
  induction l generalizing q with
  | nil => exact absurd hx List.not_mem_nil
  | cons p ps ih =>
    by_cases hstop : ok p = false ∨ q = 0
    · rw [sweep_stop hstop]
      exact hx
    · rw [not_or, Bool.not_eq_false] at hstop
      obtain ⟨hp, hq⟩ := hstop
      have hmem : x ∈ ps := by
        rcases List.mem_cons.mp hx with rfl | hmem
        · exact absurd (hp.symm.trans hok) (by simp)
        · exact hmem
      by_cases hle : qty p ≤ q
      · rw [sweep_take hp hq hle]
        exact ih hmem
      · rw [sweep_reduce hp hq (by omega)]
        exact List.mem_cons_of_mem _ hmem

/-- **Conservation**: the list loses exactly the units the sweep found. -/
theorem sweep_total (ok : α → Bool) (q : ℕ) (l : List α) :
    ((sweep ok q l).rest.map qty).sum + q = (l.map qty).sum + (sweep ok q l).left := by
  induction l generalizing q with
  | nil => simp [sweep]
  | cons p ps ih =>
    by_cases hstop : ok p = false ∨ q = 0
    · rw [sweep_stop hstop]
    · rw [not_or, Bool.not_eq_false] at hstop
      obtain ⟨hok, hq⟩ := hstop
      by_cases hle : qty p ≤ q
      · rw [sweep_take hok hq hle, List.map_cons, List.sum_cons]
        have := ih (q - qty p)
        simp only
        omega
      · rw [sweep_reduce hok hq (by omega), List.map_cons, List.sum_cons, List.map_cons,
          List.sum_cons, qty_reduce _ _ (by omega)]
        simp only
        omega

/-- **The image of a sweep** under a map that keeps quantities, reductions and what is `ok`. -/
theorem sweep_image [Lot β] {f : α → β} {ok' : β → Bool} (hq : ∀ p, qty (f p) = qty p)
    (hr : ∀ p n, f (reduce p n) = reduce (f p) n) (hok : ∀ p ∈ l, ok' (f p) = ok p) :
    sweep ok' q (l.map f) =
      ⟨(sweep ok q l).filled.map f, (sweep ok q l).rest.map f, (sweep ok q l).left⟩ := by
  induction l generalizing q with
  | nil => rfl
  | cons p ps ih =>
    have hp := hok p List.mem_cons_self
    rw [List.map_cons]
    by_cases hstop : ok p = false ∨ q = 0
    · rw [sweep_stop hstop, sweep_stop (by rwa [hp])]
      rfl
    · rw [not_or, Bool.not_eq_false] at hstop
      obtain ⟨hok1, hq1⟩ := hstop
      by_cases hle : qty p ≤ q
      · rw [sweep_take hok1 hq1 hle, sweep_take (hp.trans hok1) hq1 (by rwa [hq]), hq,
          ih fun x hx => hok x (List.mem_cons_of_mem _ hx)]
        rfl
      · rw [sweep_reduce hok1 hq1 (by omega),
          sweep_reduce (hp.trans hok1) hq1 (by rw [hq]; omega), ← hr]
        rfl

/-! ## What is taken from each lot -/

/-- The lots the sweep takes units from, in order, with how many. -/
def takes (ok : α → Bool) : ℕ → List α → List (α × ℕ)
  | _, [] => []
  | q, p :: ps =>
    if ok p = false ∨ q = 0 then []
    else if qty p ≤ q then (p, qty p) :: takes ok (q - qty p) ps
    else [(p, q)]

theorem takes_stop {p : α} {ps : List α} (h : ok p = false ∨ q = 0) :
    takes ok q (p :: ps) = [] := by
  rw [takes, if_pos h]

theorem takes_take {p : α} {ps : List α} (hok : ok p = true) (hq : q ≠ 0) (hle : qty p ≤ q) :
    takes ok q (p :: ps) = (p, qty p) :: takes ok (q - qty p) ps := by
  rw [takes, if_neg (by simp [hok, hq]), if_pos hle]

theorem takes_reduce {p : α} {ps : List α} (hok : ok p = true) (hq : q ≠ 0) (hlt : q < qty p) :
    takes ok q (p :: ps) = [(p, q)] := by
  rw [takes, if_neg (by simp [hok, hq]), if_neg (by omega)]

theorem takes_zero (l : List α) : takes ok 0 l = [] := by
  cases l with
  | nil => rfl
  | cons p ps => exact takes_stop (Or.inr rfl)

theorem takes_none (h : ∀ p ∈ l, ok p = false) : takes ok q l = [] := by
  cases l with
  | nil => rfl
  | cons p ps => exact takes_stop (Or.inl (h p List.mem_cons_self))

/-- Units are taken from `ok` lots, at least one from each where no lot is empty. -/
theorem mem_takes (hpos : ∀ p ∈ l, 0 < qty p) {x : α} {n : ℕ} (hx : (x, n) ∈ takes ok q l) :
    x ∈ l ∧ ok x = true ∧ 0 < n := by
  induction l generalizing q with
  | nil => exact absurd hx List.not_mem_nil
  | cons p ps ih =>
    by_cases hstop : ok p = false ∨ q = 0
    · rw [takes_stop hstop] at hx
      exact absurd hx List.not_mem_nil
    · rw [not_or, Bool.not_eq_false] at hstop
      obtain ⟨hok, hq⟩ := hstop
      by_cases hle : qty p ≤ q
      · rw [takes_take hok hq hle] at hx
        rcases List.mem_cons.mp hx with he | hx
        · obtain ⟨rfl, rfl⟩ := Prod.mk.inj he
          exact ⟨List.mem_cons_self, hok, hpos _ List.mem_cons_self⟩
        · obtain ⟨hmem, hrest⟩ := ih (fun y hy => hpos y (List.mem_cons_of_mem _ hy)) hx
          exact ⟨List.mem_cons_of_mem _ hmem, hrest⟩
      · rw [takes_reduce hok hq (by omega)] at hx
        obtain ⟨rfl, rfl⟩ := Prod.mk.inj (List.mem_singleton.mp hx)
        exact ⟨List.mem_cons_self, hok, by omega⟩

/-- What is taken, and what is left over. -/
theorem takes_sum (ok : α → Bool) (q : ℕ) (l : List α) :
    ((takes ok q l).map Prod.snd).sum + (sweep ok q l).left = q := by
  induction l generalizing q with
  | nil => simp [takes, sweep]
  | cons p ps ih =>
    by_cases hstop : ok p = false ∨ q = 0
    · rw [takes_stop hstop, sweep_stop hstop]
      simp
    · rw [not_or, Bool.not_eq_false] at hstop
      obtain ⟨hok, hq⟩ := hstop
      by_cases hle : qty p ≤ q
      · rw [takes_take hok hq hle, sweep_take hok hq hle, List.map_cons, List.sum_cons]
        have := ih (q - qty p)
        simp only
        omega
      · rw [takes_reduce hok hq (by omega), sweep_reduce hok hq (by omega)]
        simp

/-- **What the lots of a kind lose**, where a reduction does not change the kind of a lot. -/
theorem takes_total (kind : α → Bool) (hk : ∀ p n, kind (reduce p n) = kind p) (ok : α → Bool)
    (q : ℕ) (l : List α) :
    total kind l = total kind (sweep ok q l).rest +
      ((takes ok q l).map fun t => if kind t.1 = true then t.2 else 0).sum := by
  induction l generalizing q with
  | nil => rfl
  | cons p ps ih =>
    by_cases hstop : ok p = false ∨ q = 0
    · rw [takes_stop hstop, sweep_stop hstop]
      rfl
    · rw [not_or, Bool.not_eq_false] at hstop
      obtain ⟨hok, hq⟩ := hstop
      by_cases hle : qty p ≤ q
      · rw [takes_take hok hq hle, sweep_take hok hq hle, total_cons, ih (q - qty p),
          List.map_cons, List.sum_cons]
        exact Nat.add_left_comm _ _ _
      · rw [takes_reduce hok hq (by omega), sweep_reduce hok hq (by omega), total_cons,
          total_cons, hk, qty_reduce _ _ (by omega), List.map_singleton, List.sum_singleton]
        split <;> omega

end Mms.Lib
