import Mathlib.Algebra.Order.Ring.Rat
import Mms.Exchange.Calls
import Mms.Exchange.OptionOrderGenerator

/-!
# The generator's live list and the book

The generator wired to a book as in `src/mms/market_data/generator_main.cc`: `m_add_fn` is
`order_book.add`, `m_remove_fn` is `order_book.remove`, and the book's `m_fill_fn` is `notify_fill`
of the generator. The world of the generator is the book.

`Mirrors b g` says that the live orders of `g` and the orders at rest in `b` are the same multiset
of ids, sides and prices. The two are kept by different means: `add` untracks what it fills while it
runs, the generator tracks what `add` accepted after it returned, and a cancel removes from the book
first.

* `Mirrors.submit`, `Mirrors.cancel`: what one submission and one cancel keep.
* `live_list_mirrors_book`: every state of every run mirrors, so every cancel hits a resting order
  and the generator's best prices are the book's.
-/

namespace Mms

open Lib

namespace OptionOrderBook

variable {SIZE : ℕ}

/-- The orders at rest. -/
def orders (b : OptionOrderBook SIZE) : List Order := b.bids ++ b.asks

theorem orders_perm (b : OptionOrderBook SIZE) (s : Side) :
    b.orders.Perm (b.getContainer s ++ b.getContainer s.opp) := by
  cases s with
  | bid => exact List.Perm.refl _
  | ask => exact List.perm_append_comm

theorem mem_orders {b : OptionOrderBook SIZE} {x : Order} :
    x ∈ b.orders ↔ ∃ s, x ∈ b.getContainer s := by
  constructor
  · intro hx
    rcases List.mem_append.mp hx with hx | hx
    · exact ⟨.bid, hx⟩
    · exact ⟨.ask, hx⟩
  · rintro ⟨s, hx⟩
    exact (b.orders_perm s).mem_iff.mpr (List.mem_append_left _ hx)

/-- No two orders of a book have one id. -/
theorem Indexed.nodup_orders {b : OptionOrderBook SIZE} (h : Indexed b) :
    (b.orders.map Order.id).Nodup := by
  unfold orders
  rw [List.map_append]
  refine List.nodup_append.mpr ⟨h.ids .bid, h.ids .ask, fun i hi j hj he => ?_⟩
  obtain ⟨x, hx, rfl⟩ := List.mem_map.mp hi
  obtain ⟨y, hy, rfl⟩ := List.mem_map.mp hj
  have hside : Side.bid = Side.ask := h.side_unique hx hy he
  exact absurd hside (by decide)

theorem orders_without (b : OptionOrderBook SIZE) (ids : List UInt32) :
    (b.without ids).orders = b.orders.filter fun x => !ids.contains x.id := by
  have hb : (b.without ids).bids = b.bids.filter fun x => !ids.contains x.id :=
    b.getContainer_without ids .bid
  have ha : (b.without ids).asks = b.asks.filter fun x => !ids.contains x.id :=
    b.getContainer_without ids .ask
  unfold orders
  rw [hb, ha, List.filter_append]

/-- What the scan changes of an order is its quantity. -/
theorem orders_scanned {β : Type} {f : Order → β} (hf : ∀ (p : Order) (n : UInt32),
    f { p with qty := n } = f p) (b : OptionOrderBook SIZE) (o : Order) :
    (b.scanned o).orders.map f = b.orders.map f := by
  have hs : ∀ s, ((b.scanned o).getContainer s).map f = (b.getContainer s).map f := by
    intro s
    rcases o.side.opp.eq_or_eq_opp s with rfl | rfl
    · rw [scanned, getContainer_set, scan_map hf]
    · rw [scanned, getContainer_set_of_opp]
  have hb : (b.scanned o).bids.map f = b.bids.map f := hs .bid
  have ha : (b.scanned o).asks.map f = b.asks.map f := hs .ask
  unfold orders
  rw [List.map_append, List.map_append, hb, ha]

/-- An order that comes to rest is one order more. -/
theorem orders_rested (b : OptionOrderBook SIZE) (o : Order) :
    (b.rested o).orders.Perm (b.remainder o :: (b.afterMatch o).orders) := by
  have hins := (List.perm_orderedInsert (Order.Ranks o.side) (b.remainder o)
    (b.getContainer o.side)).append_right (b.swept o).rest
  have hold := (b.afterMatch o).orders_perm o.side
  have hnew := (b.rested o).orders_perm o.side
  rw [rested_own, rested_opp] at hnew
  rw [afterMatch_own, afterMatch_opp] at hold
  exact (hnew.trans hins).trans (hold.symm.cons _)

end OptionOrderBook

open OptionOrderBook (Inv Indexed AddOutcome)

namespace OptionOrderGenerator

variable {SIZE : ℕ} {F : Type}

/-! ## The wiring -/

/-- `m_fill_fn` of `generator_main`. -/
def notifier : Observer SIZE (OptionOrderGenerator F) := fun id _ g => g.notifyFill id

/-- The callbacks of `generator_main`. -/
def wiring : Wiring (OptionOrderBook SIZE) F where
  addFn order w := OptionOrderBook.add (observe (some notifier)) order w
  removeFn id w :=
    let (found, b) := w.1.remove id
    (found, b, w.2)

/-- What both sides know of an order. -/
def key (o : Order) : UInt32 × Side × Price32 := (o.id, o.side, o.price)

/-- The live orders of `g` are the orders at rest in `b`. -/
def SameKeys (b : OptionOrderBook SIZE) (g : OptionOrderGenerator F) : Prop :=
  (g.liveOrders.map key).Perm (b.orders.map key)

/-- **The live list mirrors the book.** -/
structure Mirrors (b : OptionOrderBook SIZE) (g : OptionOrderGenerator F) : Prop where
  inv : Inv b
  live : SameKeys b g

/-! ## Untracking -/

theorem untrack_liveOrders (g : OptionOrderGenerator F) (id : UInt32) :
    (g.untrack id).liveOrders =
      g.liveOrders.eraseIdx (g.liveOrders.findIdx fun o => o.id == id) := by
  unfold untrack
  by_cases h : (g.liveOrders.findIdx fun o => o.id == id) < g.liveOrders.length
  · rw [if_pos h]
  · rw [if_neg h, List.eraseIdx_of_length_le (Nat.le_of_not_lt h)]

/-- The notified ids are untracked, one after the other. -/
theorem notified_notifier (ids : List UInt32) (b : OptionOrderBook SIZE)
    (g : OptionOrderGenerator F) :
    OptionOrderBook.notified (some notifier) ids b g = ids.foldl untrack g := by
  induction ids generalizing b g with
  | nil => rfl
  | cons id ids ih => exact ih _ _

theorem foldl_untrack_liveOrders (ids : List UInt32) (g : OptionOrderGenerator F) :
    (ids.foldl untrack g).liveOrders =
      ids.foldl (fun l id => l.eraseIdx (l.findIdx fun o => o.id == id)) g.liveOrders := by
  induction ids generalizing g with
  | nil => rfl
  | cons id ids ih => rw [List.foldl_cons, List.foldl_cons, ih, untrack_liveOrders]

/-- The ids of the live list are those of the book. -/
theorem SameKeys.ids {b : OptionOrderBook SIZE} {g : OptionOrderGenerator F} (h : SameKeys b g) :
    (g.liveOrders.map Order.id).Perm (b.orders.map Order.id) := by
  have hp := h.map Prod.fst
  rwa [List.map_map, List.map_map] at hp

/-- **Removing ids from the book and untracking them.** -/
theorem SameKeys.without {b : OptionOrderBook SIZE} {g : OptionOrderGenerator F} (hi : Indexed b)
    (h : SameKeys b g) (ids : List UInt32) : SameKeys (b.without ids) (ids.foldl untrack g) := by
  have hnd : (g.liveOrders.map Order.id).Nodup := h.ids.nodup_iff.mpr hi.nodup_orders
  have hkey : ∀ l : List Order, (l.filter fun x => !ids.contains x.id).map key =
      (l.map key).filter fun k => !ids.contains k.1 := by
    intro l
    rw [List.filter_map]
    rfl
  unfold SameKeys
  rw [foldl_untrack_liveOrders, foldl_eraseIdx_findIdx ids hnd, OptionOrderBook.orders_without,
    hkey, hkey]
  exact h.filter _

/-- What `try_match` takes from the book its notifications take from the live list. -/
theorem SameKeys.afterMatch {b : OptionOrderBook SIZE} {g : OptionOrderGenerator F} (hi : Inv b)
    (h : SameKeys b g) (o : Order) :
    SameKeys (b.afterMatch o) ((b.filledIds o).foldl untrack g) := by
  have hsc : SameKeys (b.scanned o) g := by
    unfold SameKeys
    rw [OptionOrderBook.orders_scanned fun _ _ => rfl]
    exact h
  rw [← OptionOrderBook.scanned_without hi.sound]
  exact hsc.without (OptionOrderBook.scanned_indexed hi.toIndexed o) _

/-! ## Submissions and cancels -/

/-- **One submission.** Whatever `add` did with the order, after it was tracked or not the live list
mirrors the book. -/
theorem Mirrors.submit {w : OptionOrderBook SIZE × OptionOrderGenerator F}
    (h : Mirrors w.1 w.2) (o : Order) :
    Mirrors (submit wiring o w).1 (submit wiring o w).2 := by
  obtain ⟨r, b', ids, ho, he⟩ := OptionOrderBook.add_outcome h.inv.sound (some notifier) o w.2
  have hadd : (wiring : Wiring (OptionOrderBook SIZE) F).addFn o w =
      (r, b', ids.foldl untrack w.2) := by
    rw [← notified_notifier ids (w.1.scanned o)]
    exact he
  have hinv : Inv b' := ho.inv h.inv
  unfold OptionOrderGenerator.submit
  rw [hadd]
  cases ho with
  | invalid hv => exact h
  | filled hv hl => exact ⟨hinv, h.live.afterMatch h.inv o⟩
  | rejected hv hl hr => exact ⟨hinv, h.live.afterMatch h.inv o⟩
  | rested hv hl hid hs =>
    refine ⟨hinv, ?_⟩
    have hrest : ((w.1.rested o).orders.map key).Perm
        (key o :: (w.1.afterMatch o).orders.map key) := (w.1.orders_rested o).map key
    have hlive := (h.live.afterMatch h.inv o).cons (key o)
    unfold SameKeys track
    simp only [if_true, List.map_append, List.map_cons, List.map_nil]
    exact (List.perm_append_singleton _ _).trans (hlive.trans hrest.symm)

/-- A live id is at rest. -/
theorem Mirrors.has {b : OptionOrderBook SIZE} {g : OptionOrderGenerator F} (h : Mirrors b g)
    {o : Order} (ho : o ∈ g.liveOrders) : b.has o.id = true := by
  have hid : o.id ∈ b.orders.map Order.id := h.live.ids.mem_iff.mp (List.mem_map_of_mem ho)
  obtain ⟨x, hx, he⟩ := List.mem_map.mp hid
  obtain ⟨s, hx⟩ := OptionOrderBook.mem_orders.mp hx
  rw [← he]
  exact h.inv.has_of_mem hx

theorem mem_of_pickCancelId {g : OptionOrderGenerator F} {index : ℕ} {id : UInt32}
    (hp : g.pickCancelId index = some id) : ∃ o ∈ g.liveOrders, o.id = id := by
  unfold pickCancelId at hp
  split at hp
  · exact absurd hp (by simp)
  · obtain ⟨o, ho, he⟩ := Option.map_eq_some_iff.mp hp
    exact ⟨o, List.mem_of_getElem? ho, he⟩

/-- What the wired `m_remove_fn` returns and leaves. -/
theorem removeFn_eq {w : OptionOrderBook SIZE × OptionOrderGenerator F} (h : Mirrors w.1 w.2)
    (id : UInt32) : wiring.removeFn id w = (w.1.has id, w.1.without [id], w.2) := by
  unfold wiring
  simp only [OptionOrderBook.remove_eq h.inv.toIndexed]

/-- **One cancel** of any id. -/
theorem Mirrors.cancel {w : OptionOrderBook SIZE × OptionOrderGenerator F} (h : Mirrors w.1 w.2)
    (id : UInt32) : Mirrors (cancel wiring id w).1 (cancel wiring id w).2 := by
  unfold OptionOrderGenerator.cancel
  rw [removeFn_eq h]
  exact ⟨OptionOrderBook.without_inv h.inv [id], h.live.without h.inv.toIndexed [id]⟩

/-! ## Best prices -/

/-- The prices of the live orders of a side are those of its container. -/
theorem Mirrors.price_iff {b : OptionOrderBook SIZE} {g : OptionOrderGenerator F}
    (h : Mirrors b g) (s : Side) (p : Price32) :
    (∃ o ∈ g.liveOrders, o.side = s ∧ o.price = p) ↔ ∃ x ∈ b.getContainer s, x.price = p := by
  constructor
  · rintro ⟨o, ho, hs, hp⟩
    have hk : key o ∈ b.orders.map key := h.live.mem_iff.mp (List.mem_map_of_mem ho)
    obtain ⟨x, hx, he⟩ := List.mem_map.mp hk
    obtain ⟨t, hx⟩ := OptionOrderBook.mem_orders.mp hx
    simp only [key, Prod.mk.injEq] at he
    have ht : t = s := by rw [← h.inv.side t x hx, he.2.1, hs]
    subst ht
    exact ⟨x, hx, he.2.2.trans hp⟩
  · rintro ⟨x, hx, hp⟩
    have hk : key x ∈ g.liveOrders.map key :=
      h.live.mem_iff.mpr (List.mem_map_of_mem (OptionOrderBook.mem_orders.mpr ⟨s, hx⟩))
    obtain ⟨o, ho, he⟩ := List.mem_map.mp hk
    simp only [key, Prod.mk.injEq] at he
    exact ⟨o, ho, by rw [he.2.1, h.inv.side s x hx], he.2.2.trans hp⟩

/-- `_best_bid` is the highest price of a live bid. -/
theorem bestBid_spec {g : OptionOrderGenerator F} {o : Order} (ho : o ∈ g.liveOrders)
    (hs : o.side = .bid) :
    o.price ≤ g.bestBid ∧ ∃ m ∈ g.liveOrders, m.side = .bid ∧ m.price = g.bestBid := by
  have hmem : o ∈ g.liveOrders.filter fun o => o.side = .bid :=
    List.mem_filter.mpr ⟨ho, by simpa using hs⟩
  unfold bestBid
  simp only
  cases hm : (g.liveOrders.filter fun o => o.side = .bid).argmax Order.price with
  | none =>
    rw [List.argmax_eq_none.mp hm] at hmem
    exact absurd hmem List.not_mem_nil
  | some m =>
    obtain ⟨hml, hside⟩ := List.mem_filter.mp (List.argmax_mem hm)
    exact ⟨List.le_of_mem_argmax hmem hm, m, hml, by simpa using hside, rfl⟩

/-- `_best_ask` is the lowest price of a live ask. -/
theorem bestAsk_spec {g : OptionOrderGenerator F} {o : Order} (ho : o ∈ g.liveOrders)
    (hs : o.side = .ask) :
    g.bestAsk ≤ o.price ∧ ∃ m ∈ g.liveOrders, m.side = .ask ∧ m.price = g.bestAsk := by
  have hmem : o ∈ g.liveOrders.filter fun o => o.side = .ask :=
    List.mem_filter.mpr ⟨ho, by simpa using hs⟩
  unfold bestAsk
  simp only
  cases hm : (g.liveOrders.filter fun o => o.side = .ask).argmin Order.price with
  | none =>
    rw [List.argmin_eq_none.mp hm] at hmem
    exact absurd hmem List.not_mem_nil
  | some m =>
    obtain ⟨hml, hside⟩ := List.mem_filter.mp (List.argmin_mem hm)
    exact ⟨List.le_of_mem_argmin hmem hm, m, hml, by simpa using hside, rfl⟩

/-- The best live price of a side is the one of the front of its container. -/
theorem Mirrors.front {b : OptionOrderBook SIZE} {g : OptionOrderGenerator F} (h : Mirrors b g)
    {s : Side} {x : Order} {xs : List Order} (hx : b.getContainer s = x :: xs) {p : Price32}
    (hp : ∀ o ∈ g.liveOrders, o.side = s →
      s.ahead p o.price ∧ ∃ m ∈ g.liveOrders, m.side = s ∧ m.price = p) : p = x.price := by
  have hxm : x ∈ b.getContainer s := by
    rw [hx]
    exact List.mem_cons_self
  obtain ⟨o, ho, hs, he⟩ := (h.price_iff s x.price).mpr ⟨x, hxm, rfl⟩
  obtain ⟨hle, hm⟩ := hp o ho hs
  obtain ⟨y, hy, hyp⟩ := (h.price_iff s p).mp hm
  have hsorted := h.inv.sorted s
  rw [hx] at hy hsorted
  have hxy : s.ahead x.price p := by
    rw [← hyp]
    rcases List.mem_cons.mp hy with rfl | hy
    · exact s.ahead_refl y.price
    · exact (List.pairwise_cons.mp hsorted).1 y hy
  rw [he] at hle
  exact Side.ahead_antisymm hle hxy

/-! ## Every run -/

section Run

variable [LT F] [DecidableLT F] [Add F]

/-- A pass up to its submissions changes the live list by one cancel or not at all. -/
theorem Mirrors.pass {w : OptionOrderBook SIZE × OptionOrderGenerator F} (h : Mirrors w.1 w.2)
    (d : Draws F) :
    Mirrors (pass wiring d w).world.1 (pass wiring d w).world.2 := by
  unfold OptionOrderGenerator.pass
  simp only
  split
  · split
    · exact h.cancel _
    · exact h
  · split
    · exact ⟨h.inv, h.live⟩
    · exact ⟨h.inv, h.live⟩

/-- **Every state of every run mirrors.** -/
theorem run_mirrors {option : Structs.Option} {config : OptionOrderGeneratorConfig F}
    {s : Loop (OptionOrderBook SIZE) F}
    (hr : (run wiring (OptionOrderBook.empty, new option config)).Reachable s) :
    Mirrors s.world.1 s.world.2 := by
  refine LTS.Reachable.invariant (I := fun s => Mirrors s.world.1 s.world.2) (fun s h0 => ?_)
    (fun s a s' h hs => ?_) hr
  · have h0' : s = ⟨(OptionOrderBook.empty, new option config), []⟩ := h0
    rw [h0']
    exact ⟨OptionOrderBook.inv_empty, List.Perm.refl _⟩
  · cases a with
    | pass d =>
      obtain ⟨-, -, rfl⟩ := hs
      exact h.pass d
    | submit o =>
      obtain ⟨rest, -, rfl⟩ := hs
      exact h.submit o

/-- **The generator's live list mirrors the book.** After every step of every run the ids, sides and
prices of the live orders are those of the orders at rest, as multisets. So every cancel of `run`
hits a resting order, and the best prices the generator computes are the best prices of the
book. -/
theorem live_list_mirrors_book {option : Structs.Option} {config : OptionOrderGeneratorConfig F}
    {s : Loop (OptionOrderBook SIZE) F}
    (hr : (run wiring (OptionOrderBook.empty, new option config)).Reachable s) :
    let b := s.world.1
    let g := s.world.2
    (g.liveOrders.map key).Perm ((b.bids ++ b.asks).map key) ∧
    (∀ index id, g.pickCancelId index = some id → (wiring.removeFn id s.world).1 = true) ∧
    (∀ x xs, b.bids = x :: xs → g.bestBid = x.price ∧ ∀ y ∈ b.bids, y.price ≤ g.bestBid) ∧
    ∀ x xs, b.asks = x :: xs → g.bestAsk = x.price ∧ ∀ y ∈ b.asks, g.bestAsk ≤ y.price := by
  intro b g
  have h : Mirrors b g := run_mirrors hr
  refine ⟨h.live, fun index id hp => ?_, fun x xs hx => ⟨?_, fun y hy => ?_⟩,
    fun x xs hx => ⟨?_, fun y hy => ?_⟩⟩
  · obtain ⟨o, ho, rfl⟩ := mem_of_pickCancelId hp
    rw [removeFn_eq h]
    exact h.has ho
  · exact h.front (s := .bid) hx fun o ho hs => bestBid_spec ho hs
  · obtain ⟨o, ho, hs, he⟩ := (h.price_iff .bid y.price).mpr ⟨y, hy, rfl⟩
    rw [← he]
    exact (bestBid_spec ho hs).1
  · exact h.front (s := .ask) hx fun o ho hs => bestAsk_spec ho hs
  · obtain ⟨o, ho, hs, he⟩ := (h.price_iff .ask y.price).mpr ⟨y, hy, rfl⟩
    rw [← he]
    exact (bestAsk_spec ho hs).1

end Run

/-- A bid and an ask around the mid price, then a bid that crosses. -/
theorem live_list_mirrors_book_two :
    let option : Structs.Option := ⟨⟨10000⟩, Vector.replicate 6 0, 26, 6, 20, 1⟩
    let config : OptionOrderGeneratorConfig ℚ := ⟨⟨2000⟩, ⟨600⟩, ⟨400⟩, 10, 20, 1 / 5, 0⟩
    let quote : Draws ℚ := ⟨1 / 2, 0, 0, 1, 100, 5, 200, 7, 0, 0⟩
    let cross : Draws ℚ := ⟨1 / 10, 0, 0, 9, 1, 1, 1, 1, 0, 0⟩
    let w := iteration wiring cross (iteration wiring quote
      ((OptionOrderBook.empty : OptionOrderBook 10), new option config))
    let b := w.1
    let g := w.2
    (g.liveOrders.map key).Perm ((b.bids ++ b.asks).map key) ∧
    (∀ index id, g.pickCancelId index = some id → (wiring.removeFn id w).1 = true) ∧
    (∀ x xs, b.bids = x :: xs → g.bestBid = x.price ∧ ∀ y ∈ b.bids, y.price ≤ g.bestBid) ∧
    ∀ x xs, b.asks = x :: xs → g.bestAsk = x.price ∧ ∀ y ∈ b.asks, g.bestAsk ≤ y.price := by
  intro option config quote cross
  have h0 : (run wiring ((OptionOrderBook.empty : OptionOrderBook 10), new option config)).Reachable
      ⟨(OptionOrderBook.empty, new option config), []⟩ := LTS.Reachable.start rfl
  have h1 := run_iteration (d := quote) h0 ⟨List.length_pos_iff.mpr, by decide, by decide,
    by decide, by decide, by decide, by decide⟩
  have h2 := run_iteration (d := cross) h1 ⟨List.length_pos_iff.mpr, by decide, by decide +kernel,
    by decide +kernel, by decide +kernel, by decide +kernel, by decide +kernel⟩
  exact live_list_mirrors_book h2

end OptionOrderGenerator

end Mms
