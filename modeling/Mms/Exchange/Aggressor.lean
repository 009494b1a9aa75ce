import Mathlib.Algebra.Order.Group.Abs
import Mathlib.Algebra.Order.Group.Int
import Mms.Exchange.Engine
import Mms.Exchange.PriceBand

/-!
# Aggressors on the mirrored book

The price of an aggressor comes from the generator's own list. On a book the list mirrors
(`Mms.Exchange.Mirror`) and with prices that do not overflow (`Mms.Exchange.PriceBand`) it is past
the best price of the other side by the offset, exactly.

* `takesBest_of_reach`: an order that reaches the best opposite price takes from it first.
* `aggressor_takes_best`: in every state of every run, what the aggressor does to the book.
-/

namespace Mms

open Lib

namespace OptionOrderBook

variable {SIZE : ℕ}

/-- `o` arrives at `b`, where `x :: xs` is the container it trades with, takes `taken` units and
leaves `b'`. -/
structure TakesBest (b : OptionOrderBook SIZE) (o x : Order) (xs : List Order) (taken : ℕ)
    (b' : OptionOrderBook SIZE) : Prop where
  /-- `x` has the best price. -/
  best : ∀ y ∈ x :: xs, o.side.opp.ahead x.price y.price
  pos : 1 ≤ taken
  conserved : ((b'.getContainer o.side.opp).map Lot.qty).sum + taken =
    ((x :: xs).map Lot.qty).sum
  /-- `x` is taken whole, or as far as `o` goes. -/
  front : (x.qty ≤ o.qty ∧ ∀ y ∈ b'.getContainer o.side.opp, y.id ≠ x.id) ∨
    (o.qty < x.qty ∧ b'.getContainer o.side.opp = { x with qty := x.qty - o.qty } :: xs)
  /-- An order is touched only if every strictly better one is taken whole. -/
  priority : ∀ y ∈ x :: xs, y ∉ b'.getContainer o.side.opp → ∀ z ∈ x :: xs,
    Better o.side.opp z y → ∀ u ∈ b'.getContainer o.side.opp, u.id ≠ z.id
  /-- An order is touched only if `o` reaches its price. -/
  reach : ∀ y ∈ x :: xs, y ∉ b'.getContainer o.side.opp →
    o.side.opp.ahead y.price o.price

/-- What `add` leaves on the side a valid order trades with. -/
theorem AddOutcome.opp {b b' : OptionOrderBook SIZE} {o : Order} {r : Bool} {ids : List UInt32}
    (ho : AddOutcome b o r b' ids) (hv : o.isValid = true) :
    b'.getContainer o.side.opp = (b.swept o).rest := by
  cases ho with
  | invalid hv' => exact absurd (hv.symm.trans hv') (by simp)
  | filled hv hl => exact afterMatch_opp b o
  | rejected hv hl hr => exact afterMatch_opp b o
  | rested hv hl hid hs => exact rested_opp b o

/-- An order taken whole leaves no order of its id on its side. -/
theorem ne_of_mem_filledIds {b : OptionOrderBook SIZE} (h : Inv b) {o : Order} {id : UInt32}
    (hid : id ∈ b.filledIds o) : ∀ u ∈ (b.swept o).rest, u.id ≠ id := by
  intro u hu he
  have hnodup := h.ids o.side.opp
  rw [← swept_ids] at hnodup
  exact (List.nodup_append.mp hnodup).2.2 id hid u.id (List.mem_map_of_mem hu) he.symm

theorem reduce_qty {x o : Order} (hle : o.qty.toNat ≤ x.qty.toNat) :
    Lot.reduce x o.qty.toNat = { x with qty := x.qty - o.qty } := by
  have hsub : x.qty - o.qty = UInt32.ofNat (x.qty.toNat - o.qty.toNat) := by
    apply UInt32.toNat_inj.mp
    rw [UInt32.toNat_sub_of_le _ _ (UInt32.le_iff_toNat_le.mpr hle), UInt32.toNat_ofNat_of_lt']
    exact Nat.lt_of_le_of_lt (Nat.sub_le _ _) x.qty.toNat_lt
  rw [hsub]
  rfl

/-- **A valid order that reaches the best price takes from it first.** -/
theorem takesBest_of_reach {b b' : OptionOrderBook SIZE} (h : Inv b) {o x : Order}
    {xs : List Order} {r : Bool} {ids : List UInt32} (hx : b.getContainer o.side.opp = x :: xs)
    (hv : o.isValid = true) (hreach : o.side.opp.ahead x.price o.price)
    (ho : AddOutcome b o r b' ids) :
    TakesBest b o x xs (o.qty.toNat - (b.swept o).left) b' := by
  have hq : o.qty.toNat ≠ 0 := (Order.isValid_iff.mp hv).2.ne'
  have hok : Order.tradeable o.side o.price x = true := Order.tradeable_iff.mpr hreach
  have hopp := ho.opp hv
  have hsorted := h.sorted o.side.opp
  rw [hx] at hsorted
  have hle := b.swept_left_le o
  have htotal : ((b.swept o).rest.map Lot.qty).sum + o.qty.toNat =
      ((x :: xs).map Lot.qty).sum + (b.swept o).left := by
    rw [← hx]
    exact sweep_total _ _ _
  have hpos := h.qty_pos x (hx ▸ List.mem_cons_self)
  refine ⟨fun y hy => ?_, ?_, ?_, ?_, fun y hy hyr z hz hb => ?_, fun y hy hyr => ?_⟩
  · rcases List.mem_cons.mp hy with rfl | hy
    · exact Side.ahead_refl _ _
    · exact (List.pairwise_cons.mp hsorted).1 y hy
  · have htraded : 1 ≤ b.tradedQty o := by
      unfold tradedQty
      rw [hx, total_cons, if_pos hok, Order.qty_eq]
      omega
    rw [swept_left h]
    omega
  · rw [hopp]
    omega
  · rw [hopp]
    by_cases hqx : x.qty.toNat ≤ o.qty.toNat
    · left
      refine ⟨UInt32.le_iff_toNat_le.mpr hqx, ne_of_mem_filledIds h ?_⟩
      unfold filledIds swept
      rw [hx, sweep_take hok hq hqx]
      exact List.mem_cons_self
    · right
      have hlt : o.qty.toNat < x.qty.toNat := Nat.lt_of_not_le hqx
      refine ⟨UInt32.lt_iff_toNat_lt.mpr hlt, ?_⟩
      unfold swept
      rw [hx, sweep_reduce hok hq hlt, reduce_qty hlt.le]
  · rw [hopp] at hyr ⊢
    exact ne_of_mem_filledIds h (swept_priority h o (hx ▸ hy) hyr (hx ▸ hz) hb)
  · rw [hopp] at hyr
    by_contra hfar
    have hno : Order.tradeable o.side o.price y = false :=
      Bool.eq_false_iff.mpr fun ht => hfar (Order.tradeable_iff.mp ht)
    exact hyr (sweep_mem_rest (hx ▸ hy) hno)

end OptionOrderBook

open OptionOrderBook (TakesBest)

namespace OptionOrderGenerator

variable {SIZE : ℕ} {F : Type} {c : OptionOrderGeneratorConfig F}

/-- The aggressor's price is past the best opposite price by exactly the offset. -/
theorem aggressor_price {b : OptionOrderBook SIZE} {g : OptionOrderGenerator F} (h : Mirrors b g)
    (hc : g.config.Fits) (ht : g.Tracked) {side : Side} {x : Order} {xs : List Order}
    (hx : b.getContainer side.opp = x :: xs) (qty : UInt32) (now : UInt64) :
    let o := (g.generateAggressorOrder side qty now).1
    (side = .bid → o.price.price.toInt = x.price.price.toInt + g.config.offset) ∧
      (side = .ask → o.price.price.toInt = x.price.price.toInt - g.config.offset) := by
  have hno := noOverflow_of_tracked hc ht
  unfold generateAggressorOrder makeOrder
  cases side with
  | bid =>
    have hbest : g.bestAsk = x.price := h.front (s := .ask) hx fun o ho hs => bestAsk_spec ho hs
    have hprice := hno.aggressorBid
    rw [hbest] at hprice
    simp only [if_true, hbest]
    exact ⟨fun _ => hprice, fun h => absurd h (by decide)⟩
  | ask =>
    have hbest : g.bestBid = x.price := h.front (s := .bid) hx fun o ho hs => bestBid_spec ho hs
    have hprice := hno.aggressorAsk
    rw [hbest] at hprice
    simp only [reduceCtorEq, if_false, hbest]
    exact ⟨fun h => absurd h (by decide), fun _ => hprice⟩

section Run

variable [LT F] [DecidableLT F] [Add F]

/-- **Aggressors always trade when there is something to trade with.** In every state of every
run in which the book holds an order of the other side, the order of `generate_aggressor_order`
takes at least one unit when it is given to `add`, from the best price first, and from no order
further than `aggressor_offset` from it. -/
theorem aggressor_takes_best (hc : c.Fits) {option : Structs.Option}
    {s : Loop (OptionOrderBook SIZE) F}
    (hr : (run wiring (OptionOrderBook.empty, new option c)).Reachable s) (side : Side)
    {x : Order} {xs : List Order} (hx : s.world.1.getContainer side.opp = x :: xs) {qty : UInt32}
    (hqty : 1 ≤ qty) (now : UInt64) :
    let (o, g) := s.world.2.generateAggressorOrder side qty now
    let b' := (wiring.addFn o (s.world.1, g)).2.1
    let taken := (OptionOrderBook.tryMatch (observe (some notifier)) o (s.world.1, g)).consumed
    o.side = side ∧ TakesBest s.world.1 o x xs taken.toNat b' ∧
      ∀ y ∈ x :: xs, y ∉ b'.getContainer side.opp →
        |y.price.price.toInt - x.price.price.toInt| ≤ c.offset := by
  have hm := run_mirrors hr
  obtain ⟨rfl, ht, -⟩ := run_banded wiring_notifies hc (notifiedRun_of_run hr)
  obtain ⟨hside, hband⟩ := aggressorOrder_inBand hc ht side qty now
  have hprice := aggressor_price hm hc ht hx qty now
  have hoqty : (s.world.2.generateAggressorOrder side qty now).1.qty = qty := rfl
  rcases hgen : s.world.2.generateAggressorOrder side qty now with ⟨o, g⟩
  rw [hgen] at hside hband hprice hoqty
  simp only at hside hband hprice hoqty ⊢
  subst hside
  have hv : o.isValid = true := Order.isValid_iff.mpr ⟨hc.isValid hband, by
    rw [hoqty]
    exact UInt32.le_iff_toNat_le.mp hqty⟩
  have hoffset := hc.offset
  have hreach : o.side.opp.ahead x.price o.price := by
    cases hs : o.side with
    | bid =>
      have hp := hprice.1 hs
      exact Price32.le_iff.mpr (by omega)
    | ask =>
      have hp := hprice.2 hs
      exact Price32.le_iff.mpr (by omega)
  obtain ⟨r, b', ids, ho, he⟩ := OptionOrderBook.add_outcome hm.inv.sound (some notifier) o g
  have hadd : (wiring.addFn o (s.world.1, g)).2.1 = b' := congrArg (fun w => w.2.1) he
  rw [hadd, OptionOrderBook.tryMatch_consumed hm.inv.sound]
  have htakes := OptionOrderBook.takesBest_of_reach hm.inv hx hv hreach ho
  refine ⟨rfl, htakes, fun y hy hyr => abs_le.mpr ?_⟩
  have hbest := htakes.best y hy
  have hyo := htakes.reach y hy hyr
  cases hs : o.side with
  | bid =>
    have hp := hprice.1 hs
    rw [hs] at hbest hyo
    have h1 := Price32.le_iff.mp hbest
    have h2 := Price32.le_iff.mp hyo
    constructor <;> omega
  | ask =>
    have hp := hprice.2 hs
    rw [hs] at hbest hyo
    have h1 := Price32.le_iff.mp hbest
    have h2 := Price32.le_iff.mp hyo
    constructor <;> omega

end Run

/-- A bid and an ask around the mid price, and a bid that takes the ask. -/
theorem aggressor_takes_best_quote :
    let option : Structs.Option := ⟨⟨10000⟩, Vector.replicate 6 0, 26, 6, 20, 1⟩
    let c : OptionOrderGeneratorConfig ℚ := ⟨⟨2000⟩, ⟨600⟩, ⟨400⟩, 10, 20, 1 / 5, 0⟩
    let quote : Draws ℚ := ⟨1 / 2, 0, 0, 1, 100, 5, 200, 7, 0, 0⟩
    let w := iteration wiring quote ((OptionOrderBook.empty : OptionOrderBook 10), new option c)
    let x : Order := ⟨Vector.replicate 6 0, .ask, ⟨2200⟩, 7, 2, 0, 1⟩
    let (o, g) := w.2.generateAggressorOrder .bid 9 0
    let b' := (wiring.addFn o (w.1, g)).2.1
    let taken := (OptionOrderBook.tryMatch (observe (some notifier)) o (w.1, g)).consumed
    taken = 7 ∧ o.side = .bid ∧ TakesBest w.1 o x [] taken.toNat b' ∧
      ∀ y ∈ [x], y ∉ b'.getContainer .ask →
        |y.price.price.toInt - x.price.price.toInt| ≤ c.offset := by
  intro option c quote w x
  let w0 := ((OptionOrderBook.empty : OptionOrderBook 10), new option c)
  have hq : w0.2.Allowed quote := ⟨List.length_pos_iff.mpr, by decide, by decide, by decide,
    by decide, by decide, by decide⟩
  have hr : (run wiring w0).Reachable ⟨w, []⟩ := run_iteration (.start rfl) hq
  have hc : c.Fits := ⟨by decide, by decide, by decide, by decide, by decide, by decide⟩
  have hx : w.1.getContainer .ask = [x] := by decide +kernel
  exact ⟨by decide +kernel, aggressor_takes_best hc hr .bid hx (by decide) 0⟩

end OptionOrderGenerator

end Mms
