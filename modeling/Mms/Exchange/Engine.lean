import Mms.Exchange.Calls

/-!
# `add` as a price-priority matching engine

`PricePriority b o r b' calls` is the reference behaviour of a matching engine on one incoming
order, stated over the containers alone: best prices trade first, the incoming order trades
`tradedQty b o` units and the rest of it comes to rest. It mentions neither the index, nor the
order in which `add` works.

* `add_price_priority`: on a reachable book, an order that may rest is treated so.
* `rejected_unchanged_iff`: `add` matches before it checks for a duplicate id and for a full side.
  A call that rejects the order leaves the book untouched exactly when nothing was there to trade.
-/

namespace Mms

open Lib

namespace OptionOrderBook

variable {SIZE : ℕ}

/-- What `o` can trade on `b`: the units at tradeable prices, up to its own. -/
def tradedQty (b : OptionOrderBook SIZE) (o : Order) : ℕ :=
  min o.qty.toNat (total (Order.tradeable o.side o.price) (b.getContainer o.side.opp))

/-- `y` has a strictly better price than `x`, on the side both rest on. -/
def Better (s : Side) (y x : Order) : Prop := s.ahead y.price x.price ∧ y.price ≠ x.price

/-- **The reference engine**: `o` arrives at `b`, is answered `r`, leaves `b'`, and `calls` are
notified. -/
structure PricePriority (b : OptionOrderBook SIZE) (o : Order) (r : Bool)
    (b' : OptionOrderBook SIZE) (calls : List UInt32) : Prop where
  /-- A prefix of the opposite container is consumed and notified, at most the next order is
  reduced, the others stay as they are. -/
  opposite : ∃ filled rest, b.getContainer o.side.opp = filled ++ rest ∧
    (b'.getContainer o.side.opp = rest ∨ ∃ p ps q, rest = p :: ps ∧
      b'.getContainer o.side.opp = { p with qty := q } :: ps ∧ 0 < q ∧ q < p.qty) ∧
    calls = filled.map Order.id
  /-- An order is touched only if every strictly better one is consumed. -/
  priority : ∀ x ∈ b.getContainer o.side.opp, x ∉ b'.getContainer o.side.opp →
    ∀ y ∈ b.getContainer o.side.opp, Better o.side.opp y x → y.id ∈ calls
  /-- The opposite side loses what `o` trades. -/
  conserved : ((b'.getContainer o.side.opp).map Lot.qty).sum + b.tradedQty o =
    ((b.getContainer o.side.opp).map Lot.qty).sum
  /-- What `o` cannot trade comes to rest. -/
  remainder : b.tradedQty o < o.qty.toNat → r = true ∧ ∃ pre post q,
    b.getContainer o.side = pre ++ post ∧
    b'.getContainer o.side = pre ++ { o with qty := q } :: post ∧
    q.toNat = o.qty.toNat - b.tradedQty o
  /-- An order traded in full does not come to rest. -/
  consumed : b.tradedQty o = o.qty.toNat →
    r = false ∧ b'.getContainer o.side = b.getContainer o.side

/-- The sweep matches `tradedQty`. -/
theorem swept_left {b : OptionOrderBook SIZE} (h : Inv b) (o : Order) :
    (b.swept o).left = o.qty.toNat - b.tradedQty o := by
  have := sweep_left (q := o.qty.toNat) (h.front o.side o.price)
  unfold swept tradedQty
  rw [this]
  omega

theorem tradedQty_le (b : OptionOrderBook SIZE) (o : Order) : b.tradedQty o ≤ o.qty.toNat :=
  Nat.min_le_left _ _

/-- The opposite container after matching, in the form of `PricePriority.opposite`. -/
theorem swept_split (b : OptionOrderBook SIZE) (o : Order) :
    ∃ tail, b.getContainer o.side.opp = (b.swept o).filled ++ tail ∧
      ((b.swept o).rest = tail ∨ ∃ p ps q, tail = p :: ps ∧
        (b.swept o).rest = { p with qty := q } :: ps ∧ 0 < q ∧ q < p.qty) := by
  obtain ⟨tail, hsplit, hred⟩ := sweep_split (Order.tradeable o.side o.price) o.qty.toNat
    (b.getContainer o.side.opp)
  refine ⟨tail, hsplit, hred.imp id ?_⟩
  rintro ⟨p, ps, n, htail, hrest, -, hn, hlt⟩
  refine ⟨p, ps, UInt32.ofNat (p.qty.toNat - n), htail, hrest, ?_, ?_⟩
  all_goals
    have hsize : p.qty.toNat - n < UInt32.size :=
      Nat.lt_of_le_of_lt (Nat.sub_le _ _) p.qty.toNat_lt
    rw [Order.qty_eq] at hlt
    rw [UInt32.lt_iff_toNat_lt, UInt32.toNat_ofNat_of_lt' hsize]
  · show 0 < _
    omega
  · omega

/-- **Priority.** Where the containers are sorted, an order strictly better than a touched one is
consumed. -/
theorem swept_priority {b : OptionOrderBook SIZE} (h : Inv b) (o : Order) {x y : Order}
    (hx : x ∈ b.getContainer o.side.opp) (hxr : x ∉ (b.swept o).rest)
    (hy : y ∈ b.getContainer o.side.opp) (hb : Better o.side.opp y x) : y.id ∈ b.filledIds o := by
  -- `y` is not behind `x`, or equal prices would follow
  have hbehind : ¬ Order.Ranks o.side.opp x y := fun hr => hb.2 (Side.ahead_antisymm hb.1 hr)
  have hne : y ≠ x := fun he => hb.2 (by rw [he])
  exact List.mem_map_of_mem (sweep_mem_filled (h.sorted o.side.opp) hx hxr hy hne hbehind)

/-- **`add` is the reference engine** on an order that may rest: the quantity it consumes, the
trades, the calls of `m_fill_fn`, and the remainder. -/
theorem add_price_priority {b : OptionOrderBook SIZE} (hr : Reachable b) {o : Order}
    (hv : o.isValid = true) (hid : b.has o.id = false)
    (hs : (b.getContainer o.side).length < SIZE) (calls : List UInt32) :
    (tryMatch (observe (some recorder)) o (b, calls)).consumed.toNat = b.tradedQty o ∧
    ∃ notified, (add (observe (some recorder)) o (b, calls)).2.2 = calls ++ notified ∧
      PricePriority b o (add (observe (some recorder)) o (b, calls)).1
        (add (observe (some recorder)) o (b, calls)).2.1 notified := by
  have h := reachable_inv hr
  have hleft := swept_left h o
  have hle := b.tradedQty_le o
  have hpos := (Order.isValid_iff.mp hv).2
  refine ⟨by rw [tryMatch_consumed h.sound, hleft]; omega, ?_⟩
  have htotal := sweep_total (Order.tradeable o.side o.price) o.qty.toNat
    (b.getContainer o.side.opp)
  have hcons : ((b.swept o).rest.map Lot.qty).sum + b.tradedQty o =
      ((b.getContainer o.side.opp).map Lot.qty).sum := by
    have hsum : ((b.swept o).rest.map Lot.qty).sum + o.qty.toNat =
        ((b.getContainer o.side.opp).map Lot.qty).sum + (b.swept o).left := htotal
    omega
  obtain ⟨tail, hsplit, hred⟩ := b.swept_split o
  obtain ⟨r, b', ids, ho, he⟩ := add_outcome h.sound (some recorder) o calls
  rw [he, notified_recorder]
  refine ⟨ids, rfl, ?_⟩
  cases ho with
  | invalid hv' => rw [hv] at hv'; exact absurd hv' (by simp)
  | filled _ hl =>
    refine ⟨⟨_, tail, hsplit, by rw [afterMatch_opp]; exact hred, rfl⟩, ?_, ?_, ?_, ?_⟩
    · rw [afterMatch_opp]
      exact fun x hx hxr y hy hb => swept_priority h o hx hxr hy hb
    · rw [afterMatch_opp]
      exact hcons
    · intro hlt
      omega
    · exact fun _ => ⟨rfl, afterMatch_own b o⟩
  | rejected _ hl hrej =>
    rcases hrej with hhas | hfull
    · -- the id did not rest before, and matching brings no id in
      rw [← scanned_without h.sound, has_without, Bool.and_eq_true, scanned_has, hid] at hhas
      exact absurd hhas.1 (by simp)
    · omega
  | rested _ hl _ _ =>
    refine ⟨⟨_, tail, hsplit, by rw [rested_opp]; exact hred, rfl⟩, ?_, ?_, ?_, ?_⟩
    · rw [rested_opp]
      exact fun x hx hxr y hy hb => swept_priority h o hx hxr hy hb
    · rw [rested_opp]
      exact hcons
    · intro _
      refine ⟨rfl, _, _, (b.remainder o).qty, (List.takeWhile_append_dropWhile
        (p := fun x => decide ¬ Order.Ranks o.side (b.remainder o) x)).symm, ?_, ?_⟩
      · rw [rested_own, List.orderedInsert_eq_take_drop]
        rfl
      · rw [remainder_qty, hleft]
    · intro heq
      omega

/-- A bid that takes the better ask whole and a part of the other. -/
theorem add_price_priority_two :
    let b := ((empty : OptionOrderBook 2).afterAdd (.limit .ask 100 2 1)).afterAdd
      (.limit .ask 101 3 2)
    let o := Order.limit .bid 101 4 3
    (tryMatch (observe (some recorder)) o (b, [])).consumed.toNat = b.tradedQty o ∧
    ∃ notified, (add (observe (some recorder)) o (b, [])).2.2 = [] ++ notified ∧
      PricePriority b o (add (observe (some recorder)) o (b, [])).1
        (add (observe (some recorder)) o (b, [])).2.1 notified :=
  add_price_priority ((reachable_empty.afterAdd _).afterAdd _) (by decide) (by decide)
    (by decide) []

/-! ## Rejection -/

/-- **When a rejected order leaves no trace.** For a call that returns `false` without having
filled the order, the world is as before the call, containers, index and calls of `m_fill_fn`
alike, iff the order is invalid or no order of the other side is at a price it trades with. -/
theorem rejected_unchanged_iff {b : OptionOrderBook SIZE} (hr : Reachable b) {o : Order}
    {calls : List UInt32} (hrej : (add (observe (some recorder)) o (b, calls)).1 = false)
    (hnot : o.isValid = true →
      (tryMatch (observe (some recorder)) o (b, calls)).consumed ≠ o.qty) :
    (add (observe (some recorder)) o (b, calls)).2 = (b, calls) ↔
      (o.isValid = true →
        ∀ x ∈ b.getContainer o.side.opp, Order.tradeable o.side o.price x = false) := by
  have h := reachable_inv hr
  obtain ⟨r, b', ids, ho, he⟩ := add_outcome h.sound (some recorder) o calls
  rw [he, notified_recorder]
  rw [he] at hrej
  cases ho with
  | invalid hv =>
    rw [List.append_nil]
    refine ⟨fun _ hv' => ?_, fun _ => rfl⟩
    rw [hv] at hv'
    exact absurd hv' (by simp)
  | filled hv hl =>
    refine absurd ?_ (hnot hv)
    apply UInt32.toNat_inj.mp
    rw [tryMatch_consumed h.sound, hl, Nat.sub_zero]
  | rejected hv hl _ =>
    constructor
    · intro hsame _ x hx
      have hids : b.filledIds o = [] := by
        have hcalls := congrArg Prod.snd hsame
        simpa using hcalls
      by_contra ht
      have hmem : x ∈ (b.swept o).filled := by
        rw [swept, (sweep_rest_of_left_pos (h.front _ _) hl).1, List.mem_filter]
        exact ⟨hx, by simpa using ht⟩
      have hin : x.id ∈ b.filledIds o := List.mem_map_of_mem hmem
      rw [hids] at hin
      exact absurd hin List.not_mem_nil
    · intro hn
      have hids : b.filledIds o = [] := by
        unfold filledIds
        rw [swept_none (hn hv)]
        rfl
      rw [afterMatch_none (hn hv), hids, List.append_nil]
  | rested hv hl hid hs => exact absurd hrej (by simp)

/-- A bid under the id of a resting bid, above a resting ask. -/
theorem rejected_unchanged_iff_duplicate :
    let b := ((empty : OptionOrderBook 2).afterAdd (.limit .bid 10 4 1)).afterAdd
      (.limit .ask 99 2 2)
    let o := Order.limit .bid 100 5 1
    (add (observe (some recorder)) o (b, [])).2 = (b, []) ↔
      (o.isValid = true →
        ∀ x ∈ b.getContainer o.side.opp, Order.tradeable o.side o.price x = false) :=
  rejected_unchanged_iff ((reachable_empty.afterAdd _).afterAdd _) (by decide)
    (fun _ => by decide)

/-- **A rejected order can trade.** The bid is refused for its id, but the ask is gone from the
book and was notified as filled. -/
theorem rejected_duplicate_trades :
    let b := ((empty : OptionOrderBook 2).afterAdd (.limit .bid 10 4 1)).afterAdd
      (.limit .ask 99 2 2)
    let o := Order.limit .bid 100 5 1
    Reachable b ∧ o.isValid = true ∧ b.has o.id = true ∧
      (add (observe (some recorder)) o (b, [])).1 = false ∧
      (tryMatch (observe (some recorder)) o (b, [])).consumed ≠ o.qty ∧
      (add (observe (some recorder)) o (b, [])).2 ≠ (b, []) ∧
      b.asks = [.limit .ask 99 2 2] ∧ (add (observe (some recorder)) o (b, [])).2.1.asks = [] ∧
      (add (observe (some recorder)) o (b, [])).2.2 = [2] := by
  intro b o
  have hcalls : (add (observe (some recorder)) o (b, [])).2.2 = [2] := by decide
  refine ⟨(reachable_empty.afterAdd _).afterAdd _, by decide, by decide, by decide, by decide, ?_,
    by decide, by decide, hcalls⟩
  intro he
  rw [he] at hcalls
  exact absurd hcalls (by decide)

end OptionOrderBook

end Mms
