import Mathlib.Data.List.Sort
import Mathlib.Data.List.TakeWhile

/-!
# Search, then erase or insert

A vector edited at a searched position: `findIdx` and then `eraseIdx`, or `findIdx` and then
`insertIdx`. A search that finds nothing returns the length of the list (the end iterator).

* `eraseIdx_findIdx`: with distinct keys, erasing the first element of a key keeps exactly the
  elements of the other keys; `foldl_eraseIdx_findIdx` does this for a list of keys in turn.
  `map_eraseIdx_findIdx` is what happens to the keys, distinct or not.
* `insertIdx_findIdx`: inserting before the first element the new one ranks with is
  `List.orderedInsert`; `pairwise_orderedInsert` and `orderedInsert_before` say what this does to
  an order on the list other than the one inserted by.
* `filter_orderedInsert`, `filter_orderedInsert_neg`: what a filter makes of the inserted list.
-/

namespace Mms.Lib

variable {α κ : Type*} [DecidableEq κ] {key : α → κ}

/-- The search ends inside the list exactly when the key is there. -/
theorem findIdx_lt_length {k : κ} {l : List α} :
    (l.findIdx fun x => key x == k) < l.length ↔ ∃ x ∈ l, key x = k := by
  rw [List.findIdx_lt_length]
  simp

/-- **Erase by key**: the first element of the key goes, and with distinct keys no other has it. -/
theorem eraseIdx_findIdx {k : κ} : ∀ {l : List α}, (l.map key).Nodup →
    l.eraseIdx (l.findIdx fun x => key x == k) = l.filter fun x => key x != k
  | [], _ => rfl
  | a :: l, hn => by
    rw [List.map_cons, List.nodup_cons] at hn
    rw [List.findIdx_cons]
    by_cases ha : key a = k
    · have hl : ∀ x ∈ l, (key x != k) = true := fun x hx => by
        rw [bne_iff_ne]
        exact fun h => hn.1 (List.mem_map.mpr ⟨x, hx, h.trans ha.symm⟩)
      rw [List.filter_cons_of_neg (by simp [ha]), List.filter_eq_self.mpr hl]
      simp [ha]
    · rw [beq_false_of_ne ha, List.filter_cons_of_pos (by simp [ha]), ← eraseIdx_findIdx hn.2]
      rfl

/-- Erasing a list of keys, one after the other. -/
theorem foldl_eraseIdx_findIdx : ∀ (ks : List κ) {l : List α}, (l.map key).Nodup →
    ks.foldl (fun l k => l.eraseIdx (l.findIdx fun x => key x == k)) l =
      l.filter fun x => !ks.contains (key x)
  | [], l, _ => by simp
  | k :: ks, l, hn => by
    have hn' : ((l.filter fun x => key x != k).map key).Nodup :=
      hn.sublist (List.filter_sublist.map key)
    rw [List.foldl_cons, eraseIdx_findIdx hn, foldl_eraseIdx_findIdx ks hn', List.filter_filter]
    refine List.filter_congr fun x _ => ?_
    rw [List.contains_cons, Bool.not_or, Bool.and_comm]
    rfl

/-- Without that condition: of the keys, the first `k` goes. -/
theorem map_eraseIdx_findIdx {k : κ} : ∀ l : List α,
    (l.eraseIdx (l.findIdx fun x => key x == k)).map key = (l.map key).erase k
  | [] => rfl
  | a :: l => by
    rw [List.findIdx_cons, List.map_cons, List.erase_cons]
    by_cases ha : key a = k
    · simp [ha]
    · rw [beq_false_of_ne ha, cond_false, List.eraseIdx_cons_succ, List.map_cons,
        map_eraseIdx_findIdx l, if_neg Bool.false_ne_true]

/-- **Sorted insertion**: before the first element `b` with `r a b`. -/
theorem insertIdx_findIdx (r : α → α → Prop) [DecidableRel r] (a : α) : ∀ l : List α,
    l.insertIdx (l.findIdx fun b => decide (r a b)) a = l.orderedInsert r a
  | [] => rfl
  | b :: l => by
    rw [List.findIdx_cons, List.orderedInsert_cons]
    by_cases h : r a b
    · simp [h]
    · simp [h, insertIdx_findIdx r a l]

/-- Inserting an element related both ways to all others keeps a pairwise relation. -/
theorem pairwise_orderedInsert {R : α → α → Prop} {r : α → α → Prop} [DecidableRel r] {a : α}
    {l : List α} (hp : l.Pairwise R) (ha : ∀ x ∈ l, R x a ∧ R a x) :
    (l.orderedInsert r a).Pairwise R := by
  have hl := List.takeWhile_append_dropWhile (p := fun b => decide ¬ r a b) (l := l)
  rw [List.orderedInsert_eq_take_drop]
  rw [← hl] at hp ha
  obtain ⟨h1, h2, h3⟩ := List.pairwise_append.mp hp
  refine List.pairwise_append.mpr ⟨h1, List.pairwise_cons.mpr ⟨fun x hx => ?_, h2⟩, ?_⟩
  · exact (ha x (List.mem_append_right _ hx)).2
  · intro x hx y hy
    rcases List.mem_cons.mp hy with rfl | hy
    · exact (ha x (List.mem_append_left _ hx)).1
    · exact h3 x hx y hy

/-- The inserted element stands before every element it ranks with. -/
theorem orderedInsert_before {R : α → α → Prop} {r : α → α → Prop} [DecidableRel r] {a x : α}
    {l : List α} (hp : (l.orderedInsert r a).Pairwise R) (hx : x ∈ l) (hr : r a x) : R a x := by
  have hl := List.takeWhile_append_dropWhile (p := fun b => decide ¬ r a b) (l := l)
  rw [List.orderedInsert_eq_take_drop] at hp
  rw [← hl] at hx
  rcases List.mem_append.mp hx with hx | hx
  · have := List.mem_takeWhile_imp hx
    exact absurd hr (by simpa using this)
  · exact (List.pairwise_cons.mp (List.pairwise_append.mp hp).2.1).1 x hx

/-- A filter that drops the inserted element sees the list as it was. -/
theorem filter_orderedInsert_neg {r : α → α → Prop} [DecidableRel r] {a : α} {keep : α → Bool}
    (ha : keep a = false) (l : List α) : (l.orderedInsert r a).filter keep = l.filter keep := by
  have hl := List.takeWhile_append_dropWhile (p := fun b => decide ¬ r a b) (l := l)
  rw [List.orderedInsert_eq_take_drop, List.filter_append, List.filter_cons_of_neg (by simp [ha]),
    ← List.filter_append, hl]

/-- **A filter that keeps the inserted element commutes with the insertion**: the position is found
by the order, whichever elements are there. -/
theorem filter_orderedInsert {r : α → α → Prop} [DecidableRel r] [IsTrans α r] {a : α}
    {keep : α → Bool} (ha : keep a = true) {l : List α} (hs : l.Pairwise r) :
    (l.orderedInsert r a).filter keep = (l.filter keep).orderedInsert r a := by
  induction l with
  | nil => simp [ha]
  | cons b l ih =>
    rw [List.orderedInsert_cons]
    by_cases hr : r a b
    · -- the insertion stops at `b`, and at whatever stands first after it
      have hall : ∀ c ∈ (b :: l).filter keep, r a c := by
        intro c hc
        rcases List.mem_cons.mp (List.mem_filter.mp hc).1 with rfl | hc
        · exact hr
        · exact IsTrans.trans a b c hr ((List.pairwise_cons.mp hs).1 c hc)
      rw [if_pos hr, List.filter_cons_of_pos ha]
      cases hl : (b :: l).filter keep with
      | nil => rfl
      | cons c cs => rw [List.orderedInsert_cons, if_pos (hall c (hl ▸ List.mem_cons_self))]
    · rw [if_neg hr]
      have hih := ih (List.pairwise_cons.mp hs).2
      cases hb : keep b with
      | false =>
        rw [List.filter_cons_of_neg (by simp [hb]), List.filter_cons_of_neg (by simp [hb]), hih]
      | true =>
        rw [List.filter_cons_of_pos hb, List.filter_cons_of_pos hb, List.orderedInsert_cons,
          if_neg hr, hih]

end Mms.Lib
