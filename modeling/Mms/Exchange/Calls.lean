import Mms.Exchange.BookInvariant

/-!
# Runs of calls on a book

An `Event` is a call with what it returned. `calls fill s0` are the runs of one book with one
callback registered, from the empty book and the callback's state `s0`. `bookCalls` forgets the
callback: at each call any observer may be registered, which covers `set_fill_fn` between calls.
`Reachable b` is a book some such run leaves.

* `Happens.add`, `Happens.remove`, `Happens.tryMatch`: what one call does, under the invariant.
* `reachable_inv`: every reachable book satisfies `Inv`.
* `sorted_never_crossed`, `index_matches_containers`: what that means for the containers, the
  index, and the two searches that end in an `erase`.
-/

namespace Mms

open Lib

/-- A call on a book, with what it returned. -/
inductive Event where
  | add (order : Order) (inserted : Bool)
  | remove (id : UInt32) (found : Bool)
  | tryMatch (aggressor : Order) (consumed : UInt32)

namespace OptionOrderBook

variable {SIZE : ℕ} {σ : Type}

/-- The call of `e` on the world `w` returns what `e` says and leaves `w'`. -/
def Happens (fill : Option (Observer SIZE σ)) (w : OptionOrderBook SIZE × σ) :
    Event → OptionOrderBook SIZE × σ → Prop
  | .add o r, w' => add (observe fill) o w = (r, w')
  | .remove id r, w' => w.1.remove id = (r, w'.1) ∧ w'.2 = w.2
  | .tryMatch o n, w' => (tryMatch (observe fill) o w).consumed = n ∧
      (tryMatch (observe fill) o w).world = w'

/-- The runs of a book with the callback `fill`, whose state starts as `s0`. -/
def calls (fill : Option (Observer SIZE σ)) (s0 : σ) : LTS (OptionOrderBook SIZE × σ) Event where
  init w := w = (empty, s0)
  step := Happens fill

/-- The runs of a book, whatever observer is registered at each call. -/
def bookCalls (SIZE : ℕ) : LTS (OptionOrderBook SIZE) Event where
  init b := b = empty
  step b e b' := ∃ (σ : Type) (fill : Option (Observer SIZE σ)) (s s' : σ),
    Happens fill (b, s) e (b', s')

/-- A book that some run of `add`, `remove` and `try_match` leaves. -/
def Reachable (b : OptionOrderBook SIZE) : Prop := (bookCalls SIZE).Reachable b

/-! ## One call -/

theorem Happens.add {fill : Option (Observer SIZE σ)} {w w' : OptionOrderBook SIZE × σ} {o : Order}
    {r : Bool} (h : Inv w.1) (hs : Happens fill w (.add o r) w') :
    ∃ ids, AddOutcome w.1 o r w'.1 ids ∧ w'.2 = notified fill ids (w.1.scanned o) w.2 := by
  obtain ⟨r', b', ids, ho, he⟩ := add_outcome h.sound fill o w.2
  have hw : (r', b', notified fill ids (w.1.scanned o) w.2) = (r, w') := he.symm.trans hs
  simp only [Prod.mk.injEq] at hw
  obtain ⟨rfl, rfl⟩ := hw
  exact ⟨ids, ho, rfl⟩

theorem Happens.remove {fill : Option (Observer SIZE σ)} {w w' : OptionOrderBook SIZE × σ}
    {id : UInt32} {r : Bool} (h : Inv w.1) (hs : Happens fill w (.remove id r) w') :
    r = w.1.has id ∧ w'.1 = w.1.without [id] ∧ w'.2 = w.2 := by
  obtain ⟨h1, h2⟩ := hs
  rw [remove_eq h.toIndexed, Prod.mk.injEq] at h1
  exact ⟨h1.1.symm, h1.2.symm, h2⟩

theorem Happens.tryMatch {fill : Option (Observer SIZE σ)} {w w' : OptionOrderBook SIZE × σ}
    {o : Order} {n : UInt32} (h : Inv w.1) (hs : Happens fill w (.tryMatch o n) w') :
    n.toNat = o.qty.toNat - (w.1.swept o).left ∧ w'.1 = w.1.afterMatch o ∧
      w'.2 = notified fill (w.1.filledIds o) (w.1.scanned o) w.2 := by
  obtain ⟨rfl, rfl⟩ := hs
  refine ⟨tryMatch_consumed h.sound fill o w.2, ?_⟩
  rw [tryMatch_eq h.sound fill o w.2]
  exact ⟨rfl, rfl⟩

/-- Every call keeps the invariant. -/
theorem Happens.inv {fill : Option (Observer SIZE σ)} {w w' : OptionOrderBook SIZE × σ} {e : Event}
    (h : Inv w.1) (hs : Happens fill w e w') : Inv w'.1 := by
  cases e with
  | add o r =>
    obtain ⟨ids, ho, -⟩ := Happens.add h hs
    exact ho.inv h
  | remove id r =>
    rw [(Happens.remove h hs).2.1]
    exact without_inv h [id]
  | tryMatch o n =>
    rw [(Happens.tryMatch h hs).2.1]
    exact afterMatch_inv h o

/-! ## Every run -/

theorem calls_inv {fill : Option (Observer SIZE σ)} {s0 : σ} {h : List Event}
    {w : OptionOrderBook SIZE × σ} (hr : (calls fill s0).Run h w) : Inv w.1 := by
  refine LTS.Run.invariant (I := fun _ w => Inv w.1) (fun w h0 => ?_) (fun _ _ _ _ _ hi hs => ?_) hr
  · have h0' : w = (empty, s0) := h0
    rw [h0']
    exact inv_empty
  · exact Happens.inv hi hs

/-- **Every reachable book satisfies the invariant.** -/
theorem reachable_inv {b : OptionOrderBook SIZE} (hr : Reachable b) : Inv b := by
  refine LTS.Reachable.invariant (fun b h0 => ?_) (fun b e b' hi hs => ?_) hr
  · have h0' : b = empty := h0
    rw [h0']
    exact inv_empty
  · obtain ⟨σ, fill, s, s', hs⟩ := hs
    have hb : Inv (b, s).1 := hi
    exact Happens.inv hb hs

/-- An `add` with no callback set, as a step. -/
theorem afterAdd_step {b : OptionOrderBook SIZE} (o : Order) {r : Bool}
    (hr : (add (none : Option (FillFn SIZE Unit)) o (b, ())).1 = r) :
    (bookCalls SIZE).step b (.add o r) (b.afterAdd o) :=
  ⟨Unit, none, (), (), Prod.ext hr rfl⟩

theorem reachable_empty : Reachable (empty : OptionOrderBook SIZE) := LTS.Reachable.start rfl

theorem Reachable.add {b : OptionOrderBook SIZE} (hr : Reachable b)
    (fill : Option (Observer SIZE σ)) (o : Order) (s : σ) :
    Reachable (OptionOrderBook.add (observe fill) o (b, s)).2.1 :=
  LTS.Reachable.next (e := .add o (OptionOrderBook.add (observe fill) o (b, s)).1) hr
    ⟨σ, fill, s, (OptionOrderBook.add (observe fill) o (b, s)).2.2, rfl⟩

theorem Reachable.afterAdd {b : OptionOrderBook SIZE} (hr : Reachable b) (o : Order) :
    Reachable (b.afterAdd o) :=
  Reachable.add hr none o ()

/-- A run goes on with `add`. -/
theorem calls_add {fill : Option (Observer SIZE σ)} {s0 : σ} {h : List Event}
    {w : OptionOrderBook SIZE × σ} (hr : (calls fill s0).Run h w) (o : Order) {r : Bool}
    (he : (OptionOrderBook.add (observe fill) o w).1 = r) :
    (calls fill s0).Run (.add o r :: h) (OptionOrderBook.add (observe fill) o w).2 := by
  have hs : Happens fill w (.add o r) (OptionOrderBook.add (observe fill) o w).2 :=
    Prod.ext he rfl
  exact hr.next hs

/-- **Sorted and never crossed.** Bids do not increase and asks do not decrease, every order is on
its own side, and every bid is below every ask. -/
theorem sorted_never_crossed {b : OptionOrderBook SIZE} (hr : Reachable b) :
    (b.bids.map Order.price).Pairwise (fun p q => q ≤ p) ∧
    (b.asks.map Order.price).Pairwise (fun p q => p ≤ q) ∧
    (∀ x ∈ b.bids, x.side = .bid) ∧ (∀ x ∈ b.asks, x.side = .ask) ∧
    ∀ x ∈ b.bids, ∀ y ∈ b.asks, x.price < y.price := by
  have h := reachable_inv hr
  refine ⟨List.pairwise_map.mpr (h.sorted .bid), List.pairwise_map.mpr (h.sorted .ask),
    h.side .bid, h.side .ask, ?_⟩
  intro x hx y hy
  exact h.bid_lt_ask hx hy

/-- The book of two orders that do not cross. -/
theorem sorted_never_crossed_two :
    let b := ((empty : OptionOrderBook 2).afterAdd (.limit .bid 100 3 1)).afterAdd
      (.limit .ask 101 2 2)
    (b.bids.map Order.price).Pairwise (fun p q => q ≤ p) ∧
    (b.asks.map Order.price).Pairwise (fun p q => p ≤ q) ∧
    (∀ x ∈ b.bids, x.side = .bid) ∧ (∀ x ∈ b.asks, x.side = .ask) ∧
    ∀ x ∈ b.bids, ∀ y ∈ b.asks, x.price < y.price :=
  sorted_never_crossed ((reachable_empty.afterAdd _).afterAdd _)

/-! ## The index and the two searches -/

/-- With distinct ids, an id is counted once where it rests and never elsewhere. -/
theorem Indexed.countP {b : OptionOrderBook SIZE} (h : Indexed b) (id : UInt32) (s : Side) :
    (b.getContainer s).countP (fun x => x.id == id) =
      if ∃ x ∈ b.getContainer s, x.id = id then 1 else 0 := by
  have hcount : (b.getContainer s).countP (fun x => x.id == id) =
      ((b.getContainer s).map Order.id).count id := by
    rw [List.count, List.countP_map]
    rfl
  have hmem : id ∈ (b.getContainer s).map Order.id ↔ ∃ x ∈ b.getContainer s, x.id = id :=
    List.mem_map
  rw [hcount]
  split
  · rename_i hx
    exact List.count_eq_one_of_mem (h.ids s) (hmem.mpr hx)
  · rename_i hx
    exact List.count_eq_zero_of_not_mem fun hin => hx (hmem.mp hin)

/-- The index maps `id` to `s` iff one order of that id is on side `s` and none on the other. -/
theorem Indexed.lookup_iff_countP {b : OptionOrderBook SIZE} (h : Indexed b) (id : UInt32)
    (s : Side) : b.orderIdsToSide.lookup id = some s ↔
      (b.getContainer s).countP (fun x => x.id == id) = 1 ∧
        (b.getContainer s.opp).countP (fun x => x.id == id) = 0 := by
  rw [h.index, h.countP, h.countP]
  constructor
  · rintro ⟨x, hx, he⟩
    rw [if_pos ⟨x, hx, he⟩, if_neg]
    · exact ⟨rfl, rfl⟩
    · rintro ⟨y, hy, hid⟩
      exact s.opp_ne (h.side_unique hy hx (hid.trans he.symm))
  · rintro ⟨h1, -⟩
    by_contra hx
    rw [if_neg hx] at h1
    exact absurd h1 (by simp)

/-- **Removing what `try_match` collected.** When an id's turn comes it is still in the index, the
search for it ends inside the container, and `remove` takes it out. -/
theorem collected_removed {b : OptionOrderBook SIZE} (h : Inv b) {o : Order} {id : UInt32}
    {done todo : List UInt32}
    (hids : (scan o (b.getContainer o.side.opp)).idsToRemove = done ++ id :: todo) :
    let c := (b.scanned o).removeAll done
    c.orderIdsToSide.lookup id = some o.side.opp ∧
      ((c.getContainer o.side.opp).findIdx fun x => x.id == id) <
        (c.getContainer o.side.opp).length ∧
      (c.remove id).1 = true ∧ ∀ s, ∀ x ∈ (c.remove id).2.getContainer s, x.id ≠ id := by
  intro c
  have hfilled : b.filledIds o = done ++ id :: todo := by
    rw [← hids]
    exact (scan_eq (a := o) (h.front o.side o.price) h.qty_pos (h.ids _)).1.symm
  have hsc := scanned_indexed h.toIndexed o
  have hc : c = (b.scanned o).without done := removeAll_eq hsc done
  have hci : Indexed c := by
    rw [hc]
    exact hsc.without done
  -- the id is one of the opposite container and was not removed before
  have hall := h.ids o.side.opp
  rw [← swept_ids, hfilled] at hall
  have hnot : id ∉ done := by
    have hnd := (List.nodup_append.mp (List.nodup_append.mp hall).1).2.2
    exact fun hd => hnd id hd id List.mem_cons_self rfl
  have hmem : id ∈ (b.getContainer o.side.opp).map Order.id := by
    rw [← swept_ids, hfilled]
    exact List.mem_append_left _ (List.mem_append_right _ List.mem_cons_self)
  have hl : c.orderIdsToSide.lookup id = some o.side.opp := by
    have hm : ((b.scanned o).without done).orderIdsToSide =
        eraseAll (b.scanned o).orderIdsToSide done := rfl
    rw [hc, hm, lookup_eraseAll, if_neg hnot, scanned, setContainer_index, h.index]
    exact List.mem_map.mp hmem
  refine ⟨hl, find_lt_length hci hl, ?_, fun s x hx he => ?_⟩
  · rw [remove_eq hci]
    exact has_iff.mpr ⟨_, hl⟩
  · rw [remove_eq hci, getContainer_without, List.mem_filter] at hx
    simp [he] at hx

/-- **The index is the containers.** An id is mapped to a side iff exactly one order of that id is
there and none is on the other side; every resting order has units and a valid price; no container
outgrows its reserve. So the search of `remove` always finds the order, also for every id
`try_match` collected, whatever was removed before it. -/
theorem index_matches_containers {b : OptionOrderBook SIZE} (hr : Reachable b) :
    (∀ id s, b.orderIdsToSide.lookup id = some s ↔
      (b.getContainer s).countP (fun x => x.id == id) = 1 ∧
        (b.getContainer s.opp).countP (fun x => x.id == id) = 0) ∧
    (∀ s, ∀ x ∈ b.getContainer s, 0 < x.qty.toNat ∧ x.price.isValid = true) ∧
    (∀ s, (b.getContainer s).length ≤ SIZE) ∧
    (∀ id s, b.orderIdsToSide.lookup id = some s →
      ((b.getContainer s).findIdx fun x => x.id == id) < (b.getContainer s).length) ∧
    ∀ o done id todo,
      (scan o (b.getContainer o.side.opp)).idsToRemove = done ++ id :: todo →
      let c := (b.scanned o).removeAll done
      c.orderIdsToSide.lookup id = some o.side.opp ∧
        ((c.getContainer o.side.opp).findIdx fun x => x.id == id) <
          (c.getContainer o.side.opp).length ∧
        (c.remove id).1 = true ∧ ∀ s, ∀ x ∈ (c.remove id).2.getContainer s, x.id ≠ id := by
  have h := reachable_inv hr
  refine ⟨h.lookup_iff_countP, fun s x hx => ?_, h.size, fun id s => find_lt_length h.toIndexed,
    fun o done id todo => collected_removed h⟩
  exact ⟨h.qty_pos x hx, (Order.isValid_iff.mp (h.valid s x hx)).1⟩

/-- Two asks a bid takes whole: the second one is still there after the first was removed. -/
theorem index_matches_containers_two :
    let b := ((empty : OptionOrderBook 2).afterAdd (.limit .ask 100 2 1)).afterAdd
      (.limit .ask 101 3 2)
    let o := Order.limit .bid 101 5 3
    (∀ id s, b.orderIdsToSide.lookup id = some s ↔
      (b.getContainer s).countP (fun x => x.id == id) = 1 ∧
        (b.getContainer s.opp).countP (fun x => x.id == id) = 0) ∧
    (∀ s, ∀ x ∈ b.getContainer s, 0 < x.qty.toNat ∧ x.price.isValid = true) ∧
    (∀ s, (b.getContainer s).length ≤ 2) ∧
    ((b.getContainer .ask).findIdx fun x => x.id == 2) < (b.getContainer .ask).length ∧
    (((b.scanned o).removeAll [1]).remove 2).1 = true := by
  intro b o
  obtain ⟨h1, h2, h3, h4, h5⟩ := index_matches_containers ((reachable_empty.afterAdd
    (.limit .ask 100 2 1)).afterAdd (.limit .ask 101 3 2) : Reachable b)
  exact ⟨h1, h2, h3, h4 2 .ask (by decide), (h5 o [1] 2 [] (by decide)).2.2.1⟩

end OptionOrderBook

end Mms
