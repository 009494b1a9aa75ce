import Mathlib.Data.List.Sort
import Mms.Lib.Sweep

/-!
# A list of lots, unit by unit

`units key l` writes a list of lots out as the keys of its units, a lot of quantity `n` as `n`
copies of its key. It forgets how the units are divided into lots.

* `countP_units`: how many units have a property is the total of the lots that have it.
* `units_eq_of_total`: two lists sorted by an antisymmetric relation on the keys, with the same
  total at every key, have the same units.
* `units_sweep`: a sweep drops units from the front, as many as it matched.
-/

namespace Mms.Lib

open Lot

variable {α κ : Type*} [Lot α] {key : α → κ}

/-- The keys of the units, lot after lot. -/
def units (key : α → κ) (l : List α) : List κ :=
  l.flatMap fun x => List.replicate (qty x) (key x)

@[simp] theorem units_nil : units key ([] : List α) = [] := rfl

theorem units_cons (x : α) (l : List α) :
    units key (x :: l) = List.replicate (qty x) (key x) ++ units key l := List.flatMap_cons

theorem mem_units {l : List α} {k : κ} (hk : k ∈ units key l) : ∃ x ∈ l, key x = k := by
  obtain ⟨x, hx, hin⟩ := List.mem_flatMap.mp hk
  exact ⟨x, hx, (List.eq_of_mem_replicate hin).symm⟩

/-- **Units of a kind**: as many as the lots of that kind hold. -/
theorem countP_units (P : κ → Bool) (l : List α) :
    (units key l).countP P = total (fun x => P (key x)) l := by
  induction l with
  | nil => rfl
  | cons x l ih => rw [units_cons, List.countP_append, List.countP_replicate, total_cons, ih]

theorem count_units [DecidableEq κ] (k : κ) (l : List α) :
    (units key l).count k = total (fun x => key x == k) l := countP_units (fun j => j == k) l

/-- The units of a sorted list are sorted. -/
theorem pairwise_units {R : κ → κ → Prop} (hrefl : ∀ k, R k k) {l : List α}
    (hs : l.Pairwise fun x y => R (key x) (key y)) : (units key l).Pairwise R := by
  induction l with
  | nil => exact List.Pairwise.nil
  | cons x l ih =>
    obtain ⟨hx, hl⟩ := List.pairwise_cons.mp hs
    rw [units_cons]
    refine List.pairwise_append.mpr ⟨List.pairwise_replicate.mpr (Or.inr (hrefl _)), ih hl, ?_⟩
    intro j hj k hk
    obtain ⟨y, hy, rfl⟩ := mem_units hk
    rw [List.eq_of_mem_replicate hj]
    exact hx y hy

/-- **Sorted lists of the same totals have the same units.** -/
theorem units_eq_of_total {β : Type*} [Lot β] {key' : β → κ} [DecidableEq κ] {R : κ → κ → Prop}
    (hrefl : ∀ k, R k k) (hanti : ∀ j k, R j k → R k j → j = k) {l : List α} {l' : List β}
    (hs : l.Pairwise fun x y => R (key x) (key y))
    (hs' : l'.Pairwise fun x y => R (key' x) (key' y))
    (ht : ∀ k, total (fun x => key x == k) l = total (fun x => key' x == k) l') :
    units key l = units key' l' := by
  refine List.Perm.eq_of_pairwise (fun j k _ _ => hanti j k) (pairwise_units hrefl hs)
    (pairwise_units hrefl hs') (List.perm_iff_count.mpr fun k => ?_)
  rw [count_units, count_units, ht]

/-- **A sweep takes units off the front**, as many as it matched. -/
theorem units_sweep (hkey : ∀ (x : α) n, key (reduce x n) = key x) (ok : α → Bool) (q : ℕ)
    (l : List α) :
    units key (sweep ok q l).rest = (units key l).drop (q - (sweep ok q l).left) := by
  induction l generalizing q with
  | nil => simp [sweep]
  | cons x l ih =>
    by_cases hstop : ok x = false ∨ q = 0
    · rw [sweep_stop hstop, Nat.sub_self, List.drop_zero]
    · rw [not_or, Bool.not_eq_false] at hstop
      obtain ⟨hok, hq⟩ := hstop
      by_cases hle : qty x ≤ q
      · have hleft := sweep_left_le ok (q - qty x) l
        have hsub : q - (sweep ok (q - qty x) l).left =
            (List.replicate (qty x) (key x)).length +
              (q - qty x - (sweep ok (q - qty x) l).left) := by
          rw [List.length_replicate]
          omega
        rw [sweep_take hok hq hle, units_cons]
        simp only [ih, hsub, List.drop_append]
        simp
      · have hlen : q ≤ (List.replicate (qty x) (key x)).length := by
          rw [List.length_replicate]
          omega
        rw [sweep_reduce hok hq (by omega), units_cons, units_cons, hkey,
          qty_reduce _ _ (by omega), Nat.sub_zero, List.drop_append_of_le_length hlen,
          List.drop_replicate]

end Mms.Lib
