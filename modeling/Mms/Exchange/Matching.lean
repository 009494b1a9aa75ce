import Mms.Exchange.OptionOrderBook

/-!
# Matching is a sweep of the opposite side

`try_match` scans the opposite container in place, collects ids, and only then removes them, each
by a lookup in the index and a search in a container. This file says once what that amounts to.

* `Indexed b`: the ids in a container are distinct and the index holds exactly the resting ids,
  each with its side. Under it `remove` is `without`: the orders of that id leave both containers,
  the id leaves the index (`remove_eq`). So the removal loop is `without` the list (`removeAll_eq`).
* `removeFilled_observe`: a callback that does not touch the book does not change what the loop
  removes. `notified` is what becomes of the callback's own state.
* `scan_eq`: on a container in which the tradeable orders come first and every order has units, the
  scan and the removal of the collected ids leave what `sweep` leaves.
* `scan_map`, `scan_units`, `scan_left`: what the scan does to a container of any kind.
-/

namespace Mms

open Lib

/-- The map without the ids of a list. -/
def eraseAll (m : MapT) (ids : List UInt32) : MapT := ids.foldl (fun m id => m.erase id) m

theorem lookup_eraseAll (ids : List UInt32) (m : MapT) (k : UInt32) :
    (eraseAll m ids).lookup k = if k ∈ ids then none else m.lookup k := by
  induction ids generalizing m with
  | nil => simp [eraseAll]
  | cons id ids ih =>
    have hstep : eraseAll m (id :: ids) = eraseAll (m.erase id) ids := rfl
    rw [hstep, ih]
    by_cases hk : k ∈ ids
    · rw [if_pos hk, if_pos (List.mem_cons_of_mem _ hk)]
    · by_cases hid : k = id
      · subst hid
        rw [if_neg hk, if_pos List.mem_cons_self, Finmap.lookup_erase]
      · rw [if_neg hk, Finmap.lookup_erase_ne hid, if_neg]
        rw [List.mem_cons, not_or]
        exact ⟨hid, hk⟩

/-- Erasing an id that was just inserted, and was new, restores the map. -/
theorem erase_insert_of_notMem {m : MapT} {id : UInt32} {s : Side} (h : m.lookup id = none) :
    (m.insert id s).erase id = m := by
  refine Finmap.ext_lookup fun k => ?_
  by_cases hk : k = id
  · rw [hk, Finmap.lookup_erase, h]
  · rw [Finmap.lookup_erase_ne hk, Finmap.lookup_insert_of_ne _ hk]

namespace OptionOrderBook

variable {SIZE : ℕ} {σ : Type}

/-- The book without the orders of the given ids. -/
def without (b : OptionOrderBook SIZE) (ids : List UInt32) : OptionOrderBook SIZE where
  bids := b.bids.filter fun o => !ids.contains o.id
  asks := b.asks.filter fun o => !ids.contains o.id
  orderIdsToSide := eraseAll b.orderIdsToSide ids

@[simp] theorem getContainer_without (b : OptionOrderBook SIZE) (ids : List UInt32) (s : Side) :
    (b.without ids).getContainer s = (b.getContainer s).filter fun o => !ids.contains o.id := by
  cases s <;> rfl

theorem without_nil (b : OptionOrderBook SIZE) : b.without [] = b := by
  refine ext_containers (fun s => ?_) rfl
  simp

theorem without_cons (b : OptionOrderBook SIZE) (id : UInt32) (ids : List UInt32) :
    b.without (id :: ids) = (b.without [id]).without ids := by
  refine ext_containers (fun s => ?_) rfl
  rw [getContainer_without, getContainer_without, getContainer_without, List.filter_filter]
  refine List.filter_congr fun x _ => ?_
  simp [Bool.and_comm]

/-! ## Removal by id -/

/-- The index and the containers agree: ids are distinct in a container, and the index maps exactly
the resting ids, each to its side. -/
structure Indexed (b : OptionOrderBook SIZE) : Prop where
  ids : ∀ s, ((b.getContainer s).map Order.id).Nodup
  index : ∀ id s, b.orderIdsToSide.lookup id = some s ↔ ∃ x ∈ b.getContainer s, x.id = id

theorem indexed_empty : Indexed (empty : OptionOrderBook SIZE) where
  ids s := by simp
  index id s := by
    rw [getContainer_empty]
    simp [empty]

/-- Two orders of one id are on one side. -/
theorem Indexed.side_unique {b : OptionOrderBook SIZE} (h : Indexed b) {s t : Side} {x y : Order}
    (hx : x ∈ b.getContainer s) (hy : y ∈ b.getContainer t) (hid : x.id = y.id) : s = t := by
  have h1 := (h.index x.id s).mpr ⟨x, hx, rfl⟩
  have h2 := (h.index x.id t).mpr ⟨y, hy, hid.symm⟩
  rw [h1] at h2
  exact Option.some.inj h2

theorem Indexed.has_iff {b : OptionOrderBook SIZE} (h : Indexed b) {id : UInt32} :
    b.has id = true ↔ ∃ s, ∃ x ∈ b.getContainer s, x.id = id := by
  rw [OptionOrderBook.has_iff]
  exact exists_congr fun s => h.index id s

theorem Indexed.has_of_mem {b : OptionOrderBook SIZE} (h : Indexed b) {s : Side} {x : Order}
    (hx : x ∈ b.getContainer s) : b.has x.id = true := h.has_iff.mpr ⟨s, x, hx, rfl⟩

/-- An id the index does not have is nowhere in the containers. -/
theorem Indexed.id_ne {b : OptionOrderBook SIZE} (h : Indexed b) {id : UInt32}
    (hid : b.has id = false) {s : Side} {x : Order} (hx : x ∈ b.getContainer s) : x.id ≠ id := by
  rintro rfl
  rw [h.has_of_mem hx] at hid
  exact absurd hid (by simp)

theorem Indexed.without {b : OptionOrderBook SIZE} (h : Indexed b) (ids : List UInt32) :
    Indexed (b.without ids) where
  ids s := by
    rw [getContainer_without]
    exact (h.ids s).sublist (List.filter_sublist.map _)
  index id s := by
    have hm : (b.without ids).orderIdsToSide = eraseAll b.orderIdsToSide ids := rfl
    rw [hm, lookup_eraseAll, getContainer_without]
    by_cases hid : id ∈ ids
    · rw [if_pos hid]
      constructor
      · intro hn
        exact absurd hn (by simp)
      · rintro ⟨x, hx, rfl⟩
        rw [List.mem_filter] at hx
        simp [hid] at hx
    · rw [if_neg hid, h.index]
      constructor
      · rintro ⟨x, hx, rfl⟩
        exact ⟨x, List.mem_filter.mpr ⟨hx, by simpa using hid⟩, rfl⟩
      · rintro ⟨x, hx, rfl⟩
        exact ⟨x, (List.mem_filter.mp hx).1, rfl⟩

theorem has_without {b : OptionOrderBook SIZE} (ids : List UInt32) (id : UInt32) :
    (b.without ids).has id = (b.has id && !ids.contains id) := by
  have hm : (b.without ids).orderIdsToSide = eraseAll b.orderIdsToSide ids := rfl
  by_cases hid : id ∈ ids
  · have : (b.without ids).has id = false := by
      rw [has_eq_false_iff, hm, lookup_eraseAll, if_pos hid]
    rw [this]
    simp [hid]
  · rw [Bool.eq_iff_iff, OptionOrderBook.has_iff, hm, lookup_eraseAll, if_neg hid,
      ← OptionOrderBook.has_iff]
    simp [hid]

/-- **`remove` is `without`**, and returns whether the id rested. -/
theorem remove_eq {b : OptionOrderBook SIZE} (h : Indexed b) (id : UInt32) :
    b.remove id = (b.has id, b.without [id]) := by
  unfold remove
  cases hl : b.orderIdsToSide.lookup id with
  | none =>
    have hno : ∀ s, ∀ x ∈ b.getContainer s, x.id ≠ id := by
      intro s x hx he
      have := (h.index id s).mpr ⟨x, hx, he⟩
      rw [hl] at this
      exact absurd this (by simp)
    have hw : b.without [id] = b := by
      refine ext_containers (fun s => ?_) (Finmap.ext_lookup fun k => ?_)
      · rw [getContainer_without, List.filter_eq_self]
        intro x hx
        simpa using hno s x hx
      · have hm : (b.without [id]).orderIdsToSide = eraseAll b.orderIdsToSide [id] := rfl
        rw [hm, lookup_eraseAll]
        split
        · rename_i hk
          rw [List.mem_singleton.mp hk, hl]
        · rfl
    rw [has_eq_false_iff.mpr hl, hw]
  | some side =>
    rw [OptionOrderBook.has_iff.mpr ⟨side, hl⟩]
    simp only [Prod.mk.injEq, true_and]
    refine ext_containers (fun s => ?_) rfl
    rw [getContainer_without, getContainer_index, eraseIdx_findIdx (h.ids side)]
    rcases side.eq_or_eq_opp s with rfl | rfl
    · rw [getContainer_set]
      refine List.filter_congr fun x _ => ?_
      rw [Bool.eq_iff_iff]
      simp
    · rw [getContainer_set_of_opp, eq_comm, List.filter_eq_self]
      intro x hx
      have hne : x.id ≠ id := by
        rintro rfl
        obtain ⟨y, hy, hid⟩ := (h.index x.id side).mp hl
        exact side.opp_ne (h.side_unique hx hy hid.symm)
      simpa using hne

/-- A resting order can be removed. -/
theorem remove_of_mem {b : OptionOrderBook SIZE} (h : Indexed b) {s : Side} {x : Order}
    (hx : x ∈ b.getContainer s) : b.remove x.id = (true, b.without [x.id]) := by
  rw [remove_eq h, h.has_of_mem hx]

/-- The search of `remove` ends inside the container whenever the id is in the index. -/
theorem find_lt_length {b : OptionOrderBook SIZE} (h : Indexed b) {id : UInt32} {s : Side}
    (hl : b.orderIdsToSide.lookup id = some s) :
    ((b.getContainer s).findIdx fun o => o.id == id) < (b.getContainer s).length :=
  findIdx_lt_length.mpr ((h.index id s).mp hl)

/-- Removing the ids of a list, one after the other. -/
def removeAll (b : OptionOrderBook SIZE) (ids : List UInt32) : OptionOrderBook SIZE :=
  ids.foldl (fun b id => (b.remove id).2) b

theorem removeAll_eq {b : OptionOrderBook SIZE} (h : Indexed b) (ids : List UInt32) :
    b.removeAll ids = b.without ids := by
  induction ids generalizing b with
  | nil => exact (without_nil b).symm
  | cons id ids ih =>
    have hstep : b.removeAll (id :: ids) = (b.remove id).2.removeAll ids := rfl
    rw [hstep, remove_eq h, ih (h.without [id]), ← without_cons]

/-! ## Notification -/

/-- What becomes of the observer's state: it is called after each removal. -/
def notified (fill : Option (Observer SIZE σ)) : List UInt32 → OptionOrderBook SIZE → σ → σ
  | [], _, s => s
  | id :: ids, b, s =>
    let b := (b.remove id).2
    match fill with
    | some g => notified fill ids b (g id b s)
    | none => notified fill ids b s

/-- **An observer does not change what is removed.** -/
theorem removeFilled_observe (fill : Option (Observer SIZE σ)) (ids : List UInt32)
    (b : OptionOrderBook SIZE) (s : σ) :
    removeFilled (observe fill) ids (b, s) = (b.removeAll ids, notified fill ids b s) := by
  induction ids generalizing b s with
  | nil => rfl
  | cons id ids ih =>
    cases fill with
    | none => exact ih _ _
    | some g => exact ih _ _

/-- The recorder is called once for each id, in order. -/
theorem notified_recorder (ids : List UInt32) (b : OptionOrderBook SIZE) (calls : List UInt32) :
    notified (some recorder) ids b calls = calls ++ ids := by
  induction ids generalizing b calls with
  | nil => simp [notified]
  | cons id ids ih =>
    simp only [notified, recorder] at ih ⊢
    rw [ih, List.append_assoc]
    rfl

/-! ## The scan -/

/-- The three-way quantity comparison of the loop. -/
theorem qty_cases (m n : UInt32) : m < n ∨ m = n ∨ n < m := by
  rcases Nat.lt_trichotomy m.toNat n.toNat with h | h | h
  · exact Or.inl (UInt32.lt_iff_toNat_lt.mpr h)
  · exact Or.inr (Or.inl (UInt32.toNat_inj.mp h))
  · exact Or.inr (Or.inr (UInt32.lt_iff_toNat_lt.mpr h))

theorem scan_skip {a p : Order} {ps : List Order}
    (ht : Order.tradeable a.side a.price p = false) :
    scan a (p :: ps) = ⟨p :: (scan a ps).container, (scan a ps).aggressor,
      (scan a ps).idsToRemove⟩ := by
  simp only [scan, Order.not_isMoreCons, ht, Bool.false_eq_true, if_false]

/-- `consumed_passive`. -/
theorem scan_passive {a p : Order} {ps : List Order}
    (ht : Order.tradeable a.side a.price p = true) (hlt : p.qty < a.qty) :
    scan a (p :: ps) = ⟨p :: (scan { a with qty := a.qty - p.qty } ps).container,
      (scan { a with qty := a.qty - p.qty } ps).aggressor,
      p.id :: (scan { a with qty := a.qty - p.qty } ps).idsToRemove⟩ := by
  simp only [scan, Order.not_isMoreCons, ht, hlt, decide_true, if_true]

/-- `consumed_aggressor`. -/
theorem scan_aggressor {a p : Order} {ps : List Order}
    (ht : Order.tradeable a.side a.price p = true) (hlt : a.qty < p.qty) :
    scan a (p :: ps) = ⟨{ p with qty := p.qty - a.qty } :: ps, { a with qty := 0 }, []⟩ := by
  have hge : ¬ p.qty < a.qty := fun h => UInt32.lt_irrefl _ (UInt32.lt_trans h hlt)
  simp only [scan, Order.not_isMoreCons, ht, hge, gt_iff_lt, hlt, decide_true, decide_false,
    if_true, Bool.false_eq_true, if_false]

/-- Both are consumed. -/
theorem scan_both {a p : Order} {ps : List Order}
    (ht : Order.tradeable a.side a.price p = true) (he : p.qty = a.qty) :
    scan a (p :: ps) = ⟨{ p with qty := 0 } :: ps, { a with qty := 0 }, [p.id]⟩ := by
  have h1 : ¬ a.qty < a.qty := UInt32.lt_irrefl _
  simp only [scan, Order.not_isMoreCons, ht, he, gt_iff_lt, h1, decide_false, if_true,
    Bool.false_eq_true, if_false]

/-- A container nothing of which trades is left alone. -/
theorem scan_none {a : Order} : ∀ {c : List Order},
    (∀ p ∈ c, Order.tradeable a.side a.price p = false) → scan a c = ⟨c, a, []⟩
  | [], _ => rfl
  | p :: ps, h => by
    rw [scan_skip (h p List.mem_cons_self), scan_none fun x hx => h x (List.mem_cons_of_mem _ hx)]

/-- The scan changes quantities only, and keeps the length. -/
theorem scan_map {β : Type} {f : Order → β} (hf : ∀ (p : Order) (n : UInt32),
    f { p with qty := n } = f p) (a : Order) (c : List Order) :
    (scan a c).container.map f = c.map f := by
  induction c generalizing a with
  | nil => rfl
  | cons p ps ih =>
    cases ht : Order.tradeable a.side a.price p with
    | false => rw [scan_skip ht, List.map_cons, List.map_cons, ih]
    | true =>
      rcases qty_cases p.qty a.qty with h | h | h
      · rw [scan_passive ht h, List.map_cons, List.map_cons, ih]
      · rw [scan_both ht h, List.map_cons, List.map_cons, hf]
      · rw [scan_aggressor ht h, List.map_cons, List.map_cons, hf]

/-- An order without units after the scan is one the scan collected, or had none before. -/
theorem scan_units {a : Order} {c : List Order} {x : Order} (hx : x ∈ (scan a c).container) :
    0 < x.qty.toNat ∨ x.id ∈ (scan a c).idsToRemove ∨ x ∈ c := by
  induction c generalizing a with
  | nil => exact absurd hx List.not_mem_nil
  | cons p ps ih =>
    cases ht : Order.tradeable a.side a.price p with
    | false =>
      rw [scan_skip ht] at hx ⊢
      rcases List.mem_cons.mp hx with rfl | hx
      · exact Or.inr (Or.inr List.mem_cons_self)
      · exact (ih hx).imp_right (Or.imp_right (List.mem_cons_of_mem p))
    | true =>
      rcases qty_cases p.qty a.qty with h | h | h
      · rw [scan_passive ht h] at hx ⊢
        rcases List.mem_cons.mp hx with rfl | hx
        · exact Or.inr (Or.inr List.mem_cons_self)
        · exact (ih hx).imp_right (Or.imp (List.mem_cons_of_mem p.id) (List.mem_cons_of_mem p))
      · rw [scan_both ht h] at hx ⊢
        rcases List.mem_cons.mp hx with rfl | hx
        · exact Or.inr (Or.inl List.mem_cons_self)
        · exact Or.inr (Or.inr (List.mem_cons_of_mem p hx))
      · rw [scan_aggressor ht h] at hx ⊢
        rcases List.mem_cons.mp hx with rfl | hx
        · left
          have hlt := UInt32.lt_iff_toNat_lt.mp h
          have hsub : (p.qty - a.qty).toNat = p.qty.toNat - a.qty.toNat :=
            UInt32.toNat_sub_of_le _ _ (UInt32.le_of_lt h)
          simp only [hsub]
          omega
        · exact Or.inr (Or.inr (List.mem_cons_of_mem p hx))

/-- The scan takes units from the aggressor and changes nothing else of it. -/
theorem scan_left (a : Order) (c : List Order) :
    ∃ n, (scan a c).aggressor = { a with qty := n } := by
  induction c generalizing a with
  | nil => exact ⟨a.qty, rfl⟩
  | cons p ps ih =>
    cases ht : Order.tradeable a.side a.price p with
    | false =>
      rw [scan_skip ht]
      exact ih a
    | true =>
      rcases qty_cases p.qty a.qty with h | h | h
      · rw [scan_passive ht h]
        exact ih { a with qty := a.qty - p.qty }
      · rw [scan_both ht h]
        exact ⟨0, rfl⟩
      · rw [scan_aggressor ht h]
        exact ⟨0, rfl⟩

/-- **The scan and the removal of the collected ids are a sweep.** -/
theorem scan_eq {a : Order} {c : List Order}
    (hf : Front (Order.tradeable a.side a.price) c) (hpos : ∀ p ∈ c, 0 < p.qty.toNat)
    (hn : (c.map Order.id).Nodup) :
    (scan a c).idsToRemove =
      (sweep (Order.tradeable a.side a.price) a.qty.toNat c).filled.map Order.id ∧
    (scan a c).aggressor =
      { a with
        qty := UInt32.ofNat (sweep (Order.tradeable a.side a.price) a.qty.toNat c).left } ∧
    ((scan a c).container.filter fun o => !(scan a c).idsToRemove.contains o.id) =
      (sweep (Order.tradeable a.side a.price) a.qty.toNat c).rest := by
  induction c generalizing a with
  | nil => simp [scan, sweep]
  | cons p ps ih =>
    cases ht : Order.tradeable a.side a.price p with
    | false =>
      have hall := hf.all_false ht
      rw [scan_none hall, sweep_none hall]
      simp
    | true =>
      rw [List.map_cons, List.nodup_cons] at hn
      have hp := hpos p List.mem_cons_self
      have hnot : ∀ o ∈ ps, o.id ≠ p.id := fun o ho he => hn.1 (List.mem_map.mpr ⟨o, ho, he⟩)
      rcases qty_cases p.qty a.qty with h | h | h
      · -- the passive order is consumed, the loop goes on with the rest
        have hlt := UInt32.lt_iff_toNat_lt.mp h
        have hsub : (a.qty - p.qty).toNat = a.qty.toNat - p.qty.toNat :=
          UInt32.toNat_sub_of_le _ _ (UInt32.le_of_lt h)
        obtain ⟨h1, h2, h3⟩ := ih (a := { a with qty := a.qty - p.qty }) hf.tail
          (fun x hx => hpos x (List.mem_cons_of_mem _ hx)) hn.2
        simp only [hsub] at h1 h2 h3
        rw [scan_passive ht h, sweep_take ht (by omega) (Nat.le_of_lt hlt)]
        refine ⟨?_, h2, ?_⟩
        · rw [h1]
          rfl
        · rw [List.filter_cons_of_neg (by simp)]
          refine Eq.trans (List.filter_congr fun x hx => ?_) h3
          have hx' : x.id ∈ ps.map Order.id := by
            rw [← scan_map (fun _ _ => rfl) { a with qty := a.qty - p.qty } ps]
            exact List.mem_map_of_mem hx
          have hne : x.id ≠ p.id := fun he => hn.1 (he ▸ hx')
          simp [hne]
      · have ha : a.qty.toNat = p.qty.toNat := by rw [h]
        rw [scan_both ht h, sweep_take ht (by omega) (by rw [Order.qty_eq]; omega), Order.qty_eq,
          ha, Nat.sub_self, sweep_zero]
        refine ⟨rfl, rfl, ?_⟩
        rw [List.filter_cons_of_neg (by simp), List.filter_eq_self]
        intro x hx
        simpa using hnot x hx
      · have hlt := UInt32.lt_iff_toNat_lt.mp h
        rw [scan_aggressor ht h]
        by_cases h0 : a.qty.toNat = 0
        · -- an aggressor without units takes nothing
          have ha : a.qty = 0 := UInt32.toNat_inj.mp h0
          rw [h0, sweep_zero, ha, UInt32.sub_zero]
          simp
        · rw [sweep_reduce ht h0 hlt]
          have hq : p.qty - a.qty = UInt32.ofNat (p.qty.toNat - a.qty.toNat) := by
            apply UInt32.toNat_inj.mp
            rw [UInt32.toNat_sub_of_le _ _ (UInt32.le_of_lt h), UInt32.toNat_ofNat_of_lt']
            exact Nat.lt_of_le_of_lt (Nat.sub_le _ _) p.qty.toNat_lt
          rw [hq]
          simp [Lot.reduce]

end OptionOrderBook

end Mms
