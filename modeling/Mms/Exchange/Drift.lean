import Mms.Exchange.Mirror

/-!
# A live list that does not match the book

`Mirror` starts with an empty book and no live order. Here the generator is wired as there, but the
start is arbitrary: `seed` puts orders on the live list that no `add` accepted, and the book may
hold orders that were never tracked. Ids may coincide in any way.

* `ghosts`: how often an id is live without resting. `strays`: whether it rests without being live.
* `drift_never_grows`: `run` lets neither ever grow, and every cancel that misses removes a ghost.
-/

namespace Mms

open Lib

open OptionOrderBook (Inv Indexed)

namespace OptionOrderGenerator

variable {SIZE : ℕ} {F : Type}

/-- How often the id is on the live list. -/
def liveCount (g : OptionOrderGenerator F) (id : UInt32) : ℕ :=
  (g.liveOrders.map Order.id).count id

/-- How often the id rests in the book. -/
def restingCount (b : OptionOrderBook SIZE) (id : UInt32) : ℕ := (b.orders.map Order.id).count id

/-- How often the id is live without resting. -/
def ghosts (w : OptionOrderBook SIZE × OptionOrderGenerator F) (id : UInt32) : ℕ :=
  liveCount w.2 id - restingCount w.1 id

/-- How often the id rests without being live. -/
def strays (w : OptionOrderBook SIZE × OptionOrderGenerator F) (id : UInt32) : ℕ :=
  restingCount w.1 id - liveCount w.2 id

/-- `w'` has no ghost and no stray that `w` has not. -/
def NoWorse (w w' : OptionOrderBook SIZE × OptionOrderGenerator F) : Prop :=
  ∀ id, ghosts w' id ≤ ghosts w id ∧ strays w' id ≤ strays w id

/-! ## Counts -/

theorem liveCount_foldl_untrack (ids : List UInt32) (g : OptionOrderGenerator F) (id : UInt32) :
    liveCount (ids.foldl untrack g) id = liveCount g id - ids.count id := by
  induction ids generalizing g with
  | nil => rfl
  | cons i ids ih =>
    have hone : liveCount (g.untrack i) id = liveCount g id - if i = id then 1 else 0 := by
      unfold liveCount
      rw [untrack_liveOrders, map_eraseIdx_findIdx, List.count_erase]
      simp only [beq_iff_eq]
    rw [List.foldl_cons, ih, hone, List.count_cons]
    simp only [beq_iff_eq]
    omega

theorem liveCount_track (g : OptionOrderGenerator F) (o : Order) (id : UInt32) :
    liveCount (g.track o) id = liveCount g id + if o.id = id then 1 else 0 := by
  unfold liveCount track
  rw [List.map_append, List.count_append, List.map_singleton, List.count_singleton]
  simp only [beq_iff_eq]

/-- An id rests once or not at all. -/
theorem restingCount_eq {b : OptionOrderBook SIZE} (h : Indexed b) (id : UInt32) :
    restingCount b id = if id ∈ b.orders.map Order.id then 1 else 0 := by
  unfold restingCount
  split
  · exact List.count_eq_one_of_mem h.nodup_orders ‹_›
  · exact List.count_eq_zero_of_not_mem ‹_›

theorem restingCount_without (b : OptionOrderBook SIZE) (ids : List UInt32) (id : UInt32) :
    restingCount (b.without ids) id = if id ∈ ids then 0 else restingCount b id := by
  have hfilter : ((b.orders.filter fun x => !ids.contains x.id).map Order.id) =
      (b.orders.map Order.id).filter fun i => !ids.contains i := by
    rw [List.filter_map]
    rfl
  unfold restingCount
  rw [OptionOrderBook.orders_without, hfilter]
  split
  · refine List.count_eq_zero_of_not_mem fun hm => ?_
    have hno := (List.mem_filter.mp hm).2
    rw [List.contains_iff_mem.mpr ‹_›] at hno
    exact absurd hno Bool.false_ne_true
  · refine List.count_filter ?_
    rw [Bool.not_eq_true', Bool.eq_false_iff, Ne, List.contains_iff_mem]
    assumption

theorem restingCount_rested (b : OptionOrderBook SIZE) (o : Order) (id : UInt32) :
    restingCount (b.rested o) id =
      restingCount (b.afterMatch o) id + if o.id = id then 1 else 0 := by
  have hids : ((b.rested o).orders.map Order.id).Perm
      (o.id :: (b.afterMatch o).orders.map Order.id) := (b.orders_rested o).map Order.id
  unfold restingCount
  rw [hids.count_eq, List.count_cons]
  simp only [beq_iff_eq]

/-! ## One step -/

variable {w w0 : OptionOrderBook SIZE × OptionOrderGenerator F}

/-- **Ids that leave the book and are untracked**, whether they were in either or not. -/
theorem noWorse_without (h : Indexed w.1) {ids : List UInt32} (hn : ids.Nodup) :
    NoWorse w (w.1.without ids, ids.foldl untrack w.2) := by
  intro id
  have hone := restingCount_eq h id
  unfold ghosts strays
  rw [restingCount_without, liveCount_foldl_untrack]
  by_cases hid : id ∈ ids
  · rw [if_pos hid, List.count_eq_one_of_mem hn hid]
    split at hone <;> omega
  · rw [if_neg hid, List.count_eq_zero_of_not_mem hid]
    omega

/-- The same order added to both. -/
theorem NoWorse.add {w' w'' : OptionOrderBook SIZE × OptionOrderGenerator F} (h : NoWorse w w')
    {o : Order}
    (hr : ∀ id, restingCount w''.1 id = restingCount w'.1 id + if o.id = id then 1 else 0)
    (hl : ∀ id, liveCount w''.2 id = liveCount w'.2 id + if o.id = id then 1 else 0) :
    NoWorse w w'' := by
  intro id
  have hid := h id
  unfold ghosts strays at hid ⊢
  rw [hr, hl]
  omega

theorem noWorse_afterMatch (h : Inv w.1) (o : Order) :
    NoWorse w (w.1.afterMatch o, (w.1.filledIds o).foldl untrack w.2) := by
  have hids : ((w.1.scanned o).orders.map Order.id) = w.1.orders.map Order.id :=
    OptionOrderBook.orders_scanned (fun _ _ => rfl) w.1 o
  have hn : (w.1.filledIds o).Nodup := by
    have hall := h.ids o.side.opp
    rw [← OptionOrderBook.swept_ids] at hall
    exact (List.nodup_append.mp hall).1
  have hdrop := noWorse_without (w := (w.1.scanned o, w.2))
    (OptionOrderBook.scanned_indexed h.toIndexed o) hn
  rw [OptionOrderBook.scanned_without h.sound] at hdrop
  intro id
  have hid := hdrop id
  unfold ghosts strays restingCount at hid ⊢
  rw [hids] at hid
  exact hid

/-- **One submission** makes nothing worse. -/
theorem noWorse_submit (h : Inv w.1) (o : Order) :
    Inv (submit wiring o w).1 ∧ NoWorse w (submit wiring o w) := by
  obtain ⟨r, b', ids, ho, he⟩ := OptionOrderBook.add_outcome h.sound (some notifier) o w.2
  have hadd : (wiring : Wiring (OptionOrderBook SIZE) F).addFn o w =
      (r, b', ids.foldl untrack w.2) := by
    rw [← notified_notifier ids (w.1.scanned o)]
    exact he
  have hinv : Inv b' := ho.inv h
  unfold OptionOrderGenerator.submit
  rw [hadd]
  cases ho with
  | invalid hv => exact ⟨hinv, fun id => ⟨Nat.le_refl _, Nat.le_refl _⟩⟩
  | filled hv hl => exact ⟨hinv, noWorse_afterMatch h o⟩
  | rejected hv hl hr => exact ⟨hinv, noWorse_afterMatch h o⟩
  | rested hv hl hid hs =>
    exact ⟨hinv, (noWorse_afterMatch h o).add (restingCount_rested w.1 o)
      (liveCount_track ((w.1.filledIds o).foldl untrack w.2) o)⟩

/-- What a cancel leaves. -/
theorem cancel_eq (h : Indexed w.1) (id : UInt32) :
    wiring.removeFn id w = (w.1.has id, w.1.without [id], w.2) ∧
      cancel wiring id w = (w.1.without [id], [id].foldl untrack w.2) := by
  have hremove : wiring.removeFn id w = (w.1.has id, w.1.without [id], w.2) := by
    unfold wiring
    simp only [OptionOrderBook.remove_eq h]
  refine ⟨hremove, ?_⟩
  unfold cancel
  rw [hremove]
  rfl

/-- **One cancel** makes nothing worse. -/
theorem noWorse_cancel (h : Inv w.1) (id : UInt32) :
    Inv (cancel wiring id w).1 ∧ NoWorse w (cancel wiring id w) := by
  rw [(cancel_eq h.toIndexed id).2]
  exact ⟨OptionOrderBook.without_inv h [id],
    noWorse_without h.toIndexed (List.nodup_singleton id)⟩

/-- **A cancel that misses** takes a ghost off the live list. -/
theorem cancel_miss (h : Inv w.1) {index : ℕ} {id : UInt32} (hp : w.2.pickCancelId index = some id)
    (hmiss : (wiring.removeFn id w).1 = false) :
    ghosts (cancel wiring id w) id + 1 = ghosts w id := by
  obtain ⟨hremove, hcancel⟩ := cancel_eq h.toIndexed id
  have hmiss : w.1.has id = false := by
    rw [hremove] at hmiss
    exact hmiss
  have hno : restingCount w.1 id = 0 := by
    rw [restingCount_eq h.toIndexed, if_neg fun hm => ?_]
    obtain ⟨x, hx, he⟩ := List.mem_map.mp hm
    obtain ⟨s, hx⟩ := OptionOrderBook.mem_orders.mp hx
    have hhas := h.has_of_mem hx
    rw [he, hmiss] at hhas
    exact absurd hhas Bool.false_ne_true
  obtain ⟨o, ho, rfl⟩ := mem_of_pickCancelId hp
  have hlive : 0 < liveCount w.2 o.id := List.count_pos_iff.mpr (List.mem_map_of_mem ho)
  rw [hcancel]
  unfold ghosts
  rw [restingCount_without, liveCount_foldl_untrack, if_pos List.mem_cons_self,
    List.count_singleton_self, hno]
  omega

/-! ## Every run -/

section Run

variable [LT F] [DecidableLT F] [Add F]

theorem noWorse_pass (h : Inv w.1) (d : Draws F) :
    Inv (pass wiring d w).world.1 ∧ NoWorse w (pass wiring d w).world := by
  have hsame : NoWorse w w := fun id => ⟨Nat.le_refl _, Nat.le_refl _⟩
  unfold OptionOrderGenerator.pass
  simp only
  split
  · split
    · exact noWorse_cancel h _
    · exact ⟨h, hsame⟩
  · split
    · exact ⟨h, hsame⟩
    · exact ⟨h, hsame⟩

/-- **The live list and the book never drift apart.** From any reachable book and any live list, in
every state of every run of the loop, whatever it draws, no id has become live without resting, or
at rest without being live, more often than it was at the start. And every cancel that finds nothing
to remove takes one such id off the live list. -/
theorem drift_never_grows (hb : OptionOrderBook.Reachable w0.1)
    {s : Loop (OptionOrderBook SIZE) F} (hr : (run wiring w0).Reachable s) :
    (∀ id, ghosts s.world id ≤ ghosts w0 id ∧ strays s.world id ≤ strays w0 id) ∧
      ∀ index id, s.world.2.pickCancelId index = some id →
        (wiring.removeFn id s.world).1 = false →
        ghosts (cancel wiring id s.world) id + 1 = ghosts s.world id := by
  have hi : Inv s.world.1 ∧ NoWorse w0 s.world := by
    refine LTS.Reachable.invariant (I := fun s => Inv s.world.1 ∧ NoWorse w0 s.world)
      (fun s h0 => ?_) (fun s a s' h hs => ?_) hr
    · obtain rfl : s = ⟨w0, []⟩ := h0
      exact ⟨OptionOrderBook.reachable_inv hb, fun id => ⟨Nat.le_refl _, Nat.le_refl _⟩⟩
    · have hstep : Inv s'.world.1 ∧ NoWorse s.world s'.world := by
        cases a with
        | pass d =>
          obtain ⟨-, -, rfl⟩ := hs
          exact noWorse_pass h.1 d
        | submit o =>
          obtain ⟨rest, -, rfl⟩ := hs
          exact noWorse_submit h.1 o
      refine ⟨hstep.1, fun id => ?_⟩
      exact ⟨(hstep.2 id).1.trans (h.2 id).1, (hstep.2 id).2.trans (h.2 id).2⟩
  exact ⟨hi.2, fun index id hp hmiss => cancel_miss hi.1 hp hmiss⟩

end Run

/-- A seeded order that is not in the book, and a pass that cancels it. -/
theorem drift_never_grows_seeded :
    let option : Structs.Option := ⟨⟨10000⟩, Vector.replicate 6 0, 26, 6, 20, 1⟩
    let config : OptionOrderGeneratorConfig ℚ := ⟨⟨2000⟩, ⟨600⟩, ⟨400⟩, 10, 20, 1 / 5, 1⟩
    let order : Order := ⟨Vector.replicate 6 0, .bid, ⟨1900⟩, 5, 7, 0, 0⟩
    let w0 : OptionOrderBook 10 × OptionOrderGenerator ℚ :=
      (OptionOrderBook.empty, (new option config).seed order)
    let w := iteration wiring ⟨1 / 2, 0, 0, 1, 100, 5, 200, 7, 0, 0⟩ w0
    ghosts w0 7 = 1 ∧ ghosts w 7 = 0 ∧
      (∀ id, ghosts w id ≤ ghosts w0 id ∧ strays w id ≤ strays w0 id) ∧
      ∀ index id, w.2.pickCancelId index = some id → (wiring.removeFn id w).1 = false →
        ghosts (cancel wiring id w) id + 1 = ghosts w id := by
  intro option config order w0 w
  have h0 : (run wiring w0).Reachable ⟨w0, []⟩ := LTS.Reachable.start rfl
  have h1 := run_iteration (d := ⟨1 / 2, 0, 0, 1, 100, 5, 200, 7, 0, 0⟩) h0
    ⟨fun _ => by decide, by decide, by decide, by decide, by decide, by decide, by decide⟩
  have hb : OptionOrderBook.Reachable (OptionOrderBook.empty : OptionOrderBook 10) :=
    LTS.Reachable.start rfl
  exact ⟨by decide +kernel, by decide +kernel, drift_never_grows hb h1⟩

end OptionOrderGenerator

end Mms
