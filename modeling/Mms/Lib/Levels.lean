import Mathlib.Algebra.BigOperators.Finprod
import Mathlib.Data.List.Sort
import Mms.Lib.Sweep

/-!
# The levels of a sorted list

`level key l k` is what a list holds at the key `k`, in the order of the list. A list sorted by a
relation on the keys is the same thing as its levels.

* `eq_of_level`: two sorted lists with the same levels are equal.
* `level_orderedInsert`: an insertion puts the new item in front of its own level.
* `level_sweep`: a sweep sweeps every level by itself, for what the levels ahead of it leave over.
* `finsum_level`: a total over the list is a total over the levels.
* `split_at_level`: in a list sorted by a linear order of the keys a level is one block.
-/

namespace Mms.Lib

open Lot

variable {α κ : Type*} [DecidableEq κ] {key : α → κ} {R : κ → κ → Prop}

/-- The items of the list at the key `k`. -/
def level (key : α → κ) (l : List α) (k : κ) : List α := l.filter fun x => key x = k

@[simp] theorem level_nil (key : α → κ) (k : κ) : level key [] k = [] := rfl

theorem level_cons (x : α) (l : List α) (k : κ) :
    level key (x :: l) k = if key x = k then x :: level key l k else level key l k := by
  unfold level
  rw [List.filter_cons]
  simp only [decide_eq_true_eq]

theorem level_cons_self (x : α) (l : List α) :
    level key (x :: l) (key x) = x :: level key l (key x) :=
  (level_cons x l (key x)).trans (if_pos rfl)

theorem level_cons_of_ne {x : α} {k : κ} (l : List α) (h : key x ≠ k) :
    level key (x :: l) k = level key l k := (level_cons x l k).trans (if_neg h)

theorem mem_level {l : List α} {k : κ} {x : α} : x ∈ level key l k ↔ x ∈ l ∧ key x = k := by
  rw [level, List.mem_filter, decide_eq_true_eq]

theorem level_eq_nil {l : List α} {k : κ} (h : ∀ x ∈ l, key x ≠ k) : level key l k = [] :=
  List.filter_eq_nil_iff.mpr fun x hx => by simpa using h x hx

theorem level_filter (p : α → Bool) (l : List α) (k : κ) :
    level key (l.filter p) k = (level key l k).filter p := by
  unfold level
  rw [List.filter_filter, List.filter_filter]
  exact List.filter_congr fun x _ => Bool.and_comm _ _

/-! ## A sorted list is its levels -/

/-- The first item of a sorted list is at the head of its level in every list of the same levels. -/
theorem head_ahead {x : α} {l l' : List α} (hs : l'.Pairwise fun x y => R (key x) (key y))
    (hrefl : ∀ k, R k k) (he : ∀ k, level key (x :: l) k = level key l' k) :
    ∃ y ys, l' = y :: ys ∧ R (key y) (key x) := by
  have hx : x ∈ l' := by
    have hmem : x ∈ level key (x :: l) (key x) := mem_level.mpr ⟨List.mem_cons_self, rfl⟩
    rw [he] at hmem
    exact (mem_level.mp hmem).1
  cases l' with
  | nil => exact absurd hx List.not_mem_nil
  | cons y ys =>
    refine ⟨y, ys, rfl, ?_⟩
    rcases List.mem_cons.mp hx with rfl | hx
    · exact hrefl _
    · exact (List.pairwise_cons.mp hs).1 x hx

/-- **Sorted lists of the same levels are equal.** -/
theorem eq_of_level (hrefl : ∀ k, R k k) (hanti : ∀ j k, R j k → R k j → j = k) {l l' : List α}
    (hs : l.Pairwise fun x y => R (key x) (key y))
    (hs' : l'.Pairwise fun x y => R (key x) (key y))
    (he : ∀ k, level key l k = level key l' k) : l = l' := by
  induction l generalizing l' with
  | nil =>
    cases l' with
    | nil => rfl
    | cons y ys =>
      have hy := he (key y)
      rw [level_cons_self] at hy
      exact absurd hy (by simp)
  | cons x xs ih =>
    obtain ⟨y, ys, rfl, hyx⟩ := head_ahead hs' hrefl he
    obtain ⟨z, zs, hz, hxy⟩ := head_ahead hs hrefl fun k => (he k).symm
    obtain ⟨rfl, rfl⟩ := List.cons_eq_cons.mp hz
    -- the two heads have one key, so they are the head of one level
    have hkey : key y = key x := hanti _ _ hyx hxy
    have hhead := he (key x)
    rw [level_cons_self, ← hkey, level_cons_self] at hhead
    obtain ⟨rfl, -⟩ := List.cons_eq_cons.mp hhead
    rw [ih (List.pairwise_cons.mp hs).2 (List.pairwise_cons.mp hs').2 fun k => ?_]
    have hk := he k
    rw [level_cons, level_cons] at hk
    split at hk
    · exact (List.cons_eq_cons.mp hk).2
    · exact hk

/-- **A level of a sorted list is a block**: the lower keys come before it, the higher ones after
it. -/
theorem split_at_level {κ : Type*} [LinearOrder κ] {key : α → κ} {l : List α}
    (hs : l.Pairwise fun x y => key x ≤ key y) (k : κ) :
    l = (l.filter fun x => key x < k) ++ (level key l k ++ l.filter fun x => k < key x) := by
  induction l with
  | nil => rfl
  | cons x l ih =>
    obtain ⟨hx, hl⟩ := List.pairwise_cons.mp hs
    have hrest := ih hl
    rcases lt_trichotomy (key x) k with hlt | rfl | hgt
    · rw [List.filter_cons_of_pos (by simpa using hlt), level_cons_of_ne _ hlt.ne,
        List.filter_cons_of_neg (by simpa using hlt.le), List.cons_append, ← hrest]
    · have hnone : (l.filter fun y => key y < key x) = [] :=
        List.filter_eq_nil_iff.mpr fun y hy => by simpa using hx y hy
      rw [hnone, List.nil_append] at hrest
      rw [List.filter_cons_of_neg (by simp), level_cons_self, List.filter_cons_of_neg (by simp),
        hnone, List.nil_append, List.cons_append, ← hrest]
    · have hnone : (l.filter fun y => key y < k) = [] :=
        List.filter_eq_nil_iff.mpr fun y hy => by simpa using hgt.le.trans (hx y hy)
      have hlevel : level key l k = [] := level_eq_nil fun y hy => (hgt.trans_le (hx y hy)).ne'
      rw [hnone, hlevel, List.nil_append, List.nil_append] at hrest
      rw [List.filter_cons_of_neg (by simpa using hgt.le), hnone, level_cons_of_ne _ hgt.ne',
        hlevel, List.filter_cons_of_pos (by simpa using hgt), List.nil_append, List.nil_append,
        ← hrest]

variable {r : α → α → Prop} [DecidableRel r]

/-- **An insertion goes in front of its level**, and leaves the other levels alone. -/
theorem level_orderedInsert (hr : ∀ x y, r x y ↔ R (key x) (key y)) (hrefl : ∀ k, R k k) (a : α)
    (l : List α) (k : κ) : level key (l.orderedInsert r a) k =
      if key a = k then a :: level key l k else level key l k := by
  induction l with
  | nil => rw [List.orderedInsert_nil, level_cons]
  | cons x l ih =>
    rw [List.orderedInsert_cons]
    split
    · rw [level_cons]
    · rename_i hax
      rw [level_cons, ih, level_cons]
      -- the insertion passes `x`, which is then not on the level of `a`
      have hne : key a = k → key x ≠ k := by
        rintro rfl hx
        exact hax ((hr a x).mpr (hx ▸ hrefl _))
      by_cases ha : key a = k
      · rw [if_pos ha, if_pos ha, if_neg (hne ha), if_neg (hne ha)]
      · rw [if_neg ha, if_neg ha]

/-! ## Sweeping -/

variable [Lot α] {ok : α → Bool} {q : ℕ}

/-- The key `j` is strictly ahead of `k`. -/
def StrictlyAhead (R : κ → κ → Prop) (k j : κ) : Prop := R j k ∧ j ≠ k

instance [DecidableRel R] (k j : κ) : Decidable (StrictlyAhead R k j) :=
  inferInstanceAs (Decidable (_ ∧ _))

/-- The units of the list strictly ahead of `k`. -/
def unitsAhead (R : κ → κ → Prop) [DecidableRel R] (key : α → κ) (l : List α) (k : κ) : ℕ :=
  total (fun x => decide (StrictlyAhead R k (key x))) l

/-- In a sorted list nothing is strictly ahead of the key of the first item. -/
theorem unitsAhead_head [DecidableRel R] (hanti : ∀ j k, R j k → R k j → j = k) {x : α}
    {l : List α} (hs : (x :: l).Pairwise fun x y => R (key x) (key y)) :
    unitsAhead R key (x :: l) (key x) = 0 := by
  refine total_eq_zero fun y hy => decide_eq_false ?_
  rintro ⟨hle, hne⟩
  rcases List.mem_cons.mp hy with rfl | hy
  · exact hne rfl
  · exact hne (hanti _ _ hle ((List.pairwise_cons.mp hs).1 y hy))

omit [Lot α] in
/-- In a sorted list a key that the first item is not ahead of is the key of no item. -/
theorem level_eq_nil_of_not_ahead (hrefl : ∀ k, R k k) {x : α} {l : List α} {k : κ}
    (hs : (x :: l).Pairwise fun x y => R (key x) (key y)) (h : ¬ R (key x) k) :
    level key (x :: l) k = [] := by
  refine level_eq_nil fun y hy he => h ?_
  rw [← he]
  rcases List.mem_cons.mp hy with rfl | hy
  · exact hrefl _
  · exact (List.pairwise_cons.mp hs).1 y hy

/-- **A sweep, level by level.** What it does at a key is a sweep of that level alone, for the units
that the levels strictly ahead of it leave over. -/
theorem level_sweep [DecidableRel R] (hrefl : ∀ k, R k k) (hanti : ∀ j k, R j k → R k j → j = k)
    (hkey : ∀ (x : α) n, key (reduce x n) = key x) {l : List α}
    (hs : l.Pairwise fun x y => R (key x) (key y)) (hf : Front ok l) (k : κ) :
    level key (sweep ok q l).filled k =
        (sweep ok (q - unitsAhead R key l k) (level key l k)).filled ∧
      level key (sweep ok q l).rest k =
        (sweep ok (q - unitsAhead R key l k) (level key l k)).rest := by
  induction l generalizing q with
  | nil => exact ⟨rfl, rfl⟩
  | cons x l ih =>
    by_cases hstop : ok x = false ∨ q = 0
    · -- nothing is swept, in the list or in any of its levels
      rw [sweep_stop hstop]
      rcases hstop with hx | rfl
      · have hall := hf.all_false hx
        rw [sweep_none fun y hy => hall y (mem_level.mp hy).1]
        exact ⟨rfl, rfl⟩
      · rw [Nat.zero_sub, sweep_zero]
        exact ⟨rfl, rfl⟩
    · rw [not_or, Bool.not_eq_false] at hstop
      obtain ⟨hok, hq⟩ := hstop
      obtain ⟨hx, hl⟩ := List.pairwise_cons.mp hs
      by_cases hk : key x = k
      · -- the level of `x` is swept first
        subst hk
        have hzero := unitsAhead_head hanti hs
        rw [hzero, Nat.sub_zero, level_cons_self]
        have htail : unitsAhead R key l (key x) = 0 := by
          unfold unitsAhead at hzero ⊢
          rw [total_cons] at hzero
          omega
        by_cases hle : qty x ≤ q
        · obtain ⟨h1, h2⟩ := ih (q := q - qty x) hl hf.tail
          rw [htail, Nat.sub_zero] at h1 h2
          rw [sweep_take hok hq hle, sweep_take hok hq hle]
          simp only [level_cons_self, h1, h2, and_self]
        · have hred : level key (reduce x q :: l) (key x) = reduce x q :: level key l (key x) := by
            rw [← hkey x q, level_cons_self]
          rw [sweep_reduce hok hq (by omega), sweep_reduce hok hq (by omega)]
          exact ⟨rfl, hred⟩
      · by_cases hR : R (key x) k
        · -- `x` is strictly ahead of `k`: its units are gone before the level is swept
          have hahead : unitsAhead R key (x :: l) k = qty x + unitsAhead R key l k := by
            unfold unitsAhead
            rw [total_cons, if_pos (decide_eq_true ⟨hR, hk⟩)]
          rw [hahead, level_cons_of_ne l hk]
          by_cases hle : qty x ≤ q
          · obtain ⟨h1, h2⟩ := ih (q := q - qty x) hl hf.tail
            rw [sweep_take hok hq hle, ← Nat.sub_sub]
            exact ⟨(level_cons_of_ne _ hk).trans h1, h2⟩
          · have hnone : q - (qty x + unitsAhead R key l k) = 0 := by omega
            rw [sweep_reduce hok hq (by omega), hnone, sweep_zero]
            exact ⟨rfl, level_cons_of_ne l (by rwa [hkey])⟩
        · -- the list does not get as far as `k`
          have hnil := level_eq_nil_of_not_ahead hrefl hs hR
          have hids := sweep_map (f := key) hkey ok q (x :: l)
          have hno : ∀ y ∈ (sweep ok q (x :: l)).filled ++ (sweep ok q (x :: l)).rest,
              key y ≠ k := by
            intro y hy he
            have hin : key y ∈ (x :: l).map key := by
              rw [← hids, ← List.map_append]
              exact List.mem_map_of_mem hy
            obtain ⟨z, hz, hzk⟩ := List.mem_map.mp hin
            have hzl : z ∈ level key (x :: l) k := mem_level.mpr ⟨hz, hzk.trans he⟩
            rw [hnil] at hzl
            exact absurd hzl List.not_mem_nil
          rw [hnil, level_eq_nil fun y hy => hno y (List.mem_append_left _ hy),
            level_eq_nil fun y hy => hno y (List.mem_append_right _ hy)]
          exact ⟨rfl, rfl⟩

/-! ## Totals over the levels -/

omit [Lot α] in
/-- **A total over the list is the total over its levels**, at the keys that `P` picks. -/
theorem finsum_level (w : α → ℕ) (P : κ → Prop) [DecidablePred P] (l : List α) :
    (∑ᶠ k, if P k then ((level key l k).map w).sum else 0) =
      ((l.filter fun x => P (key x)).map w).sum := by
  have hfinite : ∀ l : List α,
      (fun k => if P k then ((level key l k).map w).sum else 0).HasFiniteSupport := by
    intro l
    refine (l.map key).finite_toSet.subset fun k hk => ?_
    by_contra hno
    have hnil : level key l k = [] := level_eq_nil fun x hx he =>
      hno (List.mem_map.mpr ⟨x, hx, he⟩)
    exact hk (by simp [hnil])
  induction l with
  | nil => simp
  | cons x l ih =>
    have hsplit : (fun k => if P k then ((level key (x :: l) k).map w).sum else 0) =
        fun k => (if P k then ((level key [x] k).map w).sum else 0) +
          (if P k then ((level key l k).map w).sum else 0) := by
      funext k
      rw [level_cons, level_cons, level_nil]
      split_ifs <;> simp
    rw [hsplit, finsum_add_distrib (hfinite [x]) (hfinite l), ih,
      finsum_eq_single _ (key x) fun k hk => ?_]
    · rw [level_cons_self, level_nil, List.filter_cons]
      split_ifs <;> simp_all
    · rw [level_cons_of_ne _ hk.symm, level_nil]
      simp

end Mms.Lib
