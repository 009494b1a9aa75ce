import Mathlib.Logic.Equiv.Defs
import Mms.Exchange.PriceBand

/-!
# Relabelled books

A book compares prices with each other and ids for equality, and looks at nothing else of an order
but its quantity. `Relabel` is a renaming of orders that it cannot tell: ids are permuted, symbols,
times and flags go anywhere, and prices and sides move together so that who is ahead of whom stays.

* `relabel_add`, `relabel_without`, `relabel_afterMatch`: one call on a book and on its relabelling.
* `run_relabel`: the relabelled calls of a run are a run, with the same answers, the relabelled
  book, and the relabelled calls of `m_fill_fn`.
* `Relabel.mirror`: bids and asks exchanged at negated prices. So the code of the one side, which
  is written out beside that of the other, does the same.
* `Relabel.shift`: all prices moved by one amount, as far as that does not overflow.
-/

namespace Mms

open Lib

/-- A renaming of orders that a book whose prices are among `Prices` cannot tell. -/
structure Relabel where
  symbol : Symbol → Symbol
  rcvTs : UInt64 → UInt64
  flags : UInt8 → UInt8
  id : UInt32 ≃ UInt32
  side : Side → Side
  price : Price32 → Price32
  Prices : Price32 → Prop
  opp : ∀ s, side s.opp = (side s).opp
  valid : ∀ p, Prices p → (price p).isValid = p.isValid
  ahead : ∀ s p q, Prices p → Prices q → p.isValid = true → q.isValid = true →
    ((side s).ahead (price p) (price q) ↔ s.ahead p q)

namespace Relabel

variable (ρ : Relabel)

/-- The order under its new labels. -/
def order (o : Order) : Order :=
  ⟨ρ.symbol o.symbol, ρ.side o.side, ρ.price o.price, o.qty, ρ.id o.id, ρ.rcvTs o.rcvTs,
    ρ.flags o.flags⟩

/-- The call under its new labels, with the same result. -/
def event : Event → Event
  | .add o r => .add (ρ.order o) r
  | .remove id r => .remove (ρ.id id) r
  | .tryMatch o n => .tryMatch (ρ.order o) n

/-- The prices of the call are among those of the renaming. `try_match` does not check the price. -/
def Covers : Event → Prop
  | .add o _ => ρ.Prices o.price
  | .remove _ _ => True
  | .tryMatch o _ => ρ.Prices o.price ∧ o.price.isValid = true

variable {ρ}

@[simp] theorem order_side (o : Order) : (ρ.order o).side = ρ.side o.side := rfl

theorem order_isValid {o : Order} (h : ρ.Prices o.price) : (ρ.order o).isValid = o.isValid := by
  have hp : (ρ.order o).price.isValid = o.price.isValid := ρ.valid o.price h
  unfold Order.isValid
  rw [hp]
  rfl

/-- The two orders trade with each other under the new labels iff they did. -/
theorem tradeable_order {o x : Order} (ho : ρ.Prices o.price) (hx : ρ.Prices x.price)
    (hov : o.price.isValid = true) (hxv : x.price.isValid = true) :
    Order.tradeable (ρ.order o).side (ρ.order o).price (ρ.order x) =
      Order.tradeable o.side o.price x := by
  have h := ρ.ahead o.side.opp x.price o.price hx ho hxv hov
  rw [ρ.opp] at h
  unfold Order.tradeable
  rw [decide_eq_decide]
  exact h

/-! ## Two renamings -/

theorem isValid_iff {p : Price32} : p.isValid = true ↔ -2 ^ 31 < p.price.toInt := by
  have hle := p.price.le_toInt
  unfold Price32.isValid Price32.invalidPrice
  rw [bne_iff_ne, Ne, ← Int32.toInt_inj, Int32.toInt_minValue]
  omega

/-- A valid price is negated without overflow. -/
theorem toInt_neg {p : Price32} (h : p.isValid = true) : (-p.price).toInt = -p.price.toInt := by
  have hlt := isValid_iff.mp h
  have hle := p.price.toInt_lt
  rw [Int32.toInt_neg]
  exact Int.bmod_eq_of_le_mul_two (by omega) (by omega)

/-- Only the invalid price is its own negation below zero. -/
theorem isValid_neg (p : Price32) : (⟨-p.price⟩ : Price32).isValid = p.isValid := by
  cases h : p.isValid with
  | false =>
    have hp : p.price = Int32.minValue := by simpa [Price32.isValid, Price32.invalidPrice] using h
    rw [hp]
    rfl
  | true =>
    have hle := p.price.toInt_lt
    rw [isValid_iff, toInt_neg h]
    omega

/-- At negated prices the other side has the same orders ahead. -/
theorem ahead_neg (s : Side) {p q : Price32} (hp : p.isValid = true) (hq : q.isValid = true) :
    s.opp.ahead ⟨-p.price⟩ ⟨-q.price⟩ ↔ s.ahead p q := by
  rw [Side.ahead_opp]
  cases s <;> simp only [Side.ahead, Price32.le_iff, toInt_neg hp, toInt_neg hq] <;> omega

/-- **Bids and asks exchanged**, at negated prices. -/
def mirror : Relabel where
  symbol s := s
  rcvTs t := t
  flags f := f
  id := Equiv.refl _
  side := Side.opp
  price p := ⟨-p.price⟩
  Prices _ := True
  opp _ := rfl
  valid p _ := isValid_neg p
  ahead s _ _ _ _ hp hq := ahead_neg s hp hq

theorem toInt_shift {p d : Int32}
    (h : -2 ^ 31 < p.toInt + d.toInt ∧ p.toInt + d.toInt < 2 ^ 31) :
    (p + d).toInt = p.toInt + d.toInt := by
  refine toInt_add_of_fits ?_ ?_
  · rw [Int32.toInt_minValue]
    omega
  · rw [Int32.toInt_maxValue]
    omega

/-- Moved by `d` without overflow, and neither price the mark of an invalid one. -/
def Shiftable (d : Int32) (p : Price32) : Prop :=
  -2 ^ 31 < p.price.toInt ∧ -2 ^ 31 < p.price.toInt + d.toInt ∧
    p.price.toInt + d.toInt < 2 ^ 31

theorem isValid_shift {d : Int32} {p : Price32} (hp : Shiftable d p) :
    Price32.isValid ⟨p.price + d⟩ = p.isValid := by
  obtain ⟨h, hd⟩ := hp
  rw [Bool.eq_iff_iff, isValid_iff, isValid_iff, toInt_shift hd]
  omega

theorem ahead_shift {d : Int32} (s : Side) {p q : Price32} (hp : Shiftable d p)
    (hq : Shiftable d q) : s.ahead ⟨p.price + d⟩ ⟨q.price + d⟩ ↔ s.ahead p q := by
  cases s <;> simp only [Side.ahead, Price32.le_iff, toInt_shift hp.2, toInt_shift hq.2] <;> omega

/-- **All prices moved by `d`**, those for which neither the sum overflows nor the mark of an
invalid price is hit. -/
def shift (d : Int32) : Relabel where
  symbol s := s
  rcvTs t := t
  flags f := f
  id := Equiv.refl _
  side s := s
  price p := ⟨p.price + d⟩
  Prices := Shiftable d
  opp _ := rfl
  valid _ hp := isValid_shift hp
  ahead s _ _ hp hq _ _ := ahead_shift s hp hq

end Relabel

namespace OptionOrderBook

variable {SIZE : ℕ} {ρ : Relabel} {b b' : OptionOrderBook SIZE}

/-- `b'` is `b` under new labels. -/
structure Relabels (ρ : Relabel) (b b' : OptionOrderBook SIZE) : Prop where
  containers : ∀ s, b'.getContainer (ρ.side s) = (b.getContainer s).map ρ.order
  prices : ∀ s, ∀ x ∈ b.getContainer s, ρ.Prices x.price

theorem relabels_empty : Relabels ρ (empty : OptionOrderBook SIZE) empty where
  containers s := by simp
  prices s x hx := by simp at hx

/-- The other container. -/
theorem Relabels.opp (hR : Relabels ρ b b') (o : Order) :
    b'.getContainer (ρ.order o).side.opp = (b.getContainer o.side.opp).map ρ.order := by
  rw [Relabel.order_side, ← ρ.opp, hR.containers]

/-- The relabelled ids rest where the ids did. -/
theorem Relabels.has (h : Indexed b) (h' : Indexed b') (hR : Relabels ρ b b') (id : UInt32) :
    b'.has (ρ.id id) = b.has id := by
  rw [Bool.eq_iff_iff, has_iff, has_iff]
  simp only [h.index, h'.index]
  constructor
  · rintro ⟨t, y, hy, he⟩
    -- a container of `b'` is the image of one of `b`
    obtain ⟨s, rfl⟩ : ∃ s, ρ.side s = t := by
      rcases (ρ.side .bid).eq_or_eq_opp t with rfl | rfl
      · exact ⟨.bid, rfl⟩
      · exact ⟨Side.bid.opp, ρ.opp .bid⟩
    rw [hR.containers] at hy
    obtain ⟨x, hx, rfl⟩ := List.mem_map.mp hy
    exact ⟨s, x, hx, ρ.id.injective he⟩
  · rintro ⟨s, x, hx, rfl⟩
    refine ⟨ρ.side s, ρ.order x, ?_, rfl⟩
    rw [hR.containers]
    exact List.mem_map_of_mem hx

/-! ## One call -/

/-- **A match under new labels.** -/
theorem Relabels.swept (h : Sound [] b) (hR : Relabels ρ b b') {o : Order}
    (ho : ρ.Prices o.price) (hv : o.price.isValid = true) :
    b'.swept (ρ.order o) = ⟨(b.swept o).filled.map ρ.order, (b.swept o).rest.map ρ.order,
      (b.swept o).left⟩ := by
  unfold OptionOrderBook.swept
  rw [hR.opp o]
  exact sweep_image (fun _ => rfl) (fun _ _ => rfl) fun x hx =>
    Relabel.tradeable_order ho (hR.prices _ x hx) hv (h.price _ x hx)

theorem Relabels.filledIds (h : Sound [] b) (hR : Relabels ρ b b') {o : Order}
    (ho : ρ.Prices o.price) (hv : o.price.isValid = true) :
    b'.filledIds (ρ.order o) = (b.filledIds o).map ρ.id := by
  unfold OptionOrderBook.filledIds
  rw [hR.swept h ho hv, List.map_map, List.map_map]
  rfl

/-- What a match leaves has prices of the book. -/
theorem afterMatch_prices {D : Price32 → Prop} (hD : ∀ s, ∀ x ∈ b.getContainer s, D x.price)
    (o : Order) (s : Side) : ∀ x ∈ (b.afterMatch o).getContainer s, D x.price := by
  intro x hx
  obtain ⟨y, hy, -, -, hp⟩ := mem_afterMatch hx
  exact hp ▸ hD s y hy

theorem relabel_afterMatch (h : Sound [] b) (hR : Relabels ρ b b') {o : Order}
    (ho : ρ.Prices o.price) (hv : o.price.isValid = true) :
    Relabels ρ (b.afterMatch o) (b'.afterMatch (ρ.order o)) := by
  refine ⟨fun s => ?_, afterMatch_prices hR.prices o⟩
  rcases o.side.eq_or_eq_opp s with rfl | rfl
  · rw [afterMatch_own, ← hR.containers]
    exact afterMatch_own b' (ρ.order o)
  · rw [ρ.opp, afterMatch_opp]
    refine (afterMatch_opp b' (ρ.order o)).trans ?_
    rw [hR.swept h ho hv]

theorem relabel_without (hR : Relabels ρ b b') (id : UInt32) :
    Relabels ρ (b.without [id]) (b'.without [ρ.id id]) := by
  refine ⟨fun s => ?_, fun s x hx => hR.prices s x (mem_without.mp hx).1⟩
  rw [getContainer_without, getContainer_without, hR.containers, List.filter_map]
  refine congrArg _ (List.filter_congr fun x _ => ?_)
  simp [Relabel.order]

theorem relabel_put (h : Sound [] b) (hR : Relabels ρ b b') {o : Order} (ho : ρ.Prices o.price)
    (hv : o.price.isValid = true) : Relabels ρ (b.put o) (b'.put (ρ.order o)) := by
  refine ⟨fun s => ?_, fun s x hx => ?_⟩
  · rcases o.side.eq_or_eq_opp s with rfl | rfl
    · rw [put_own]
      refine (put_own b' (ρ.order o)).trans ?_
      rw [Relabel.order_side, hR.containers]
      refine (List.map_orderedInsert _ _ ρ.order _ o (fun x hx => ?_) fun x hx => ?_).symm
      · exact (ρ.ahead _ _ _ (hR.prices _ x hx) ho (h.price _ x hx) hv).symm
      · exact (ρ.ahead _ _ _ ho (hR.prices _ x hx) hv (h.price _ x hx)).symm
    · rw [put_opp, ← hR.containers, ρ.opp]
      exact put_opp b' (ρ.order o)
  · rcases mem_put.mp hx with ⟨-, rfl⟩ | hx
    · exact ho
    · exact hR.prices s x hx

/-- **`add` under new labels.** -/
theorem relabel_add (h : Inv b) (h' : Inv b') (hR : Relabels ρ b b') {o : Order}
    (ho : ρ.Prices o.price) {r : Bool} {c : OptionOrderBook SIZE} {ids : List UInt32}
    (hout : AddOutcome b o r c ids) :
    ∃ c', AddOutcome b' (ρ.order o) r c' (ids.map ρ.id) ∧ Relabels ρ c c' := by
  have hvalid := Relabel.order_isValid ho
  cases hout with
  | invalid hv => exact ⟨b', .invalid (hvalid.trans hv), hR⟩
  | filled hv hl =>
    have hp := (Order.isValid_iff.mp hv).1
    have hleft : (b'.swept (ρ.order o)).left = 0 := by rw [hR.swept h.sound ho hp, hl]
    rw [← hR.filledIds h.sound ho hp]
    exact ⟨_, .filled (hvalid.trans hv) hleft, relabel_afterMatch h.sound hR ho hp⟩
  | rejected hv hl hr =>
    have hp := (Order.isValid_iff.mp hv).1
    have hm := relabel_afterMatch h.sound hR ho hp
    have hhas := hm.has (afterMatch_inv h o).toIndexed (afterMatch_inv h' _).toIndexed o.id
    have hlen : (b'.getContainer (ρ.order o).side).length = (b.getContainer o.side).length := by
      rw [Relabel.order_side, hR.containers, List.length_map]
    rw [← hR.filledIds h.sound ho hp]
    refine ⟨_, .rejected (hvalid.trans hv) ?_ (hr.imp hhas.trans hlen.trans), hm⟩
    rw [hR.swept h.sound ho hp]
    exact hl
  | rested hv hl hid hs =>
    have hp := (Order.isValid_iff.mp hv).1
    have hm := relabel_afterMatch h.sound hR ho hp
    have hhas := hm.has (afterMatch_inv h o).toIndexed (afterMatch_inv h' _).toIndexed o.id
    have hlen : (b'.getContainer (ρ.order o).side).length = (b.getContainer o.side).length := by
      rw [Relabel.order_side, hR.containers, List.length_map]
    have hsw := hR.swept h.sound ho hp
    have hleft : (b'.swept (ρ.order o)).left = (b.swept o).left := by rw [hsw]
    have hrem : b'.remainder (ρ.order o) = ρ.order (b.remainder o) := by
      unfold remainder
      rw [hleft]
      rfl
    rw [← hR.filledIds h.sound ho hp]
    refine ⟨_, .rested (hvalid.trans hv) (hleft ▸ hl) (hhas.trans hid) (hlen ▸ hs), ?_⟩
    rw [rested_eq, rested_eq, hrem]
    exact relabel_put (h.sound.afterMatch o) hm ho hp

/-! ## Every run -/

/-- **A call under new labels** returns the same and notifies the relabelled ids. -/
theorem Happens.relabel {w w' : OptionOrderBook SIZE × List UInt32} {e : Event} (h : Inv w.1)
    (h' : Inv b') (hR : Relabels ρ w.1 b') (hc : ρ.Covers e)
    (hs : Happens (some recorder) w e w') :
    ∃ c', Happens (some recorder) (b', w.2.map ρ.id) (ρ.event e) (c', w'.2.map ρ.id) ∧
      Relabels ρ w'.1 c' := by
  cases e with
  | add o r =>
    obtain ⟨ids, hout, hcalls⟩ := Happens.add h hs
    obtain ⟨c', hout', hR'⟩ := relabel_add h h' hR hc hout
    obtain ⟨r2, c2, ids2, hout2, he⟩ :=
      add_outcome h'.sound (some recorder) (ρ.order o) (w.2.map ρ.id)
    obtain ⟨rfl, rfl, rfl⟩ := hout2.unique hout'
    refine ⟨c2, ?_, hR'⟩
    rw [notified_recorder] at he hcalls
    rw [hcalls, List.map_append]
    exact he
  | remove id r =>
    obtain ⟨hr, hb, hcalls⟩ := Happens.remove h hs
    have hhas := hR.has h.toIndexed h'.toIndexed id
    refine ⟨b'.without [ρ.id id], ⟨?_, ?_⟩, ?_⟩
    · rw [remove_eq h'.toIndexed, hhas, hr]
    · rw [hcalls]
    · rw [hb]
      exact relabel_without hR id
  | tryMatch o n =>
    obtain ⟨ho, hp⟩ := hc
    obtain ⟨hn, hb, hcalls⟩ := Happens.tryMatch h hs
    refine ⟨b'.afterMatch (ρ.order o), ⟨?_, ?_⟩, ?_⟩
    · apply UInt32.toNat_inj.mp
      rw [tryMatch_consumed h'.sound, hn, hR.swept h.sound ho hp]
      rfl
    · rw [tryMatch_eq h'.sound, notified_recorder, hcalls, notified_recorder, List.map_append,
        hR.filledIds h.sound ho hp]
    · rw [hb]
      exact relabel_afterMatch h.sound hR ho hp

/-- **A run under new labels** is a run: the same answers, the relabelled book, and the relabelled
calls of `m_fill_fn`. -/
theorem run_relabel {h : List Event} {ids : List UInt32}
    (hr : (calls (some recorder) []).Run h (b, ids)) (hc : ∀ e ∈ h, ρ.Covers e) :
    ∃ b', (calls (some recorder) []).Run (h.map ρ.event) (b', ids.map ρ.id) ∧
      Relabels ρ b b' := by
  generalize hw : (b, ids) = w at hr
  induction hr generalizing b ids with
  | start h0 =>
    obtain ⟨rfl, rfl⟩ := Prod.mk.inj (hw.trans h0)
    exact ⟨empty, .start rfl, relabels_empty⟩
  | next hr hs ih =>
    subst hw
    obtain ⟨b1, hr1, hR⟩ := ih (fun e he => hc e (List.mem_cons_of_mem _ he)) rfl
    obtain ⟨c', hs', hR'⟩ := Happens.relabel (calls_inv hr) (calls_inv hr1) hR
      (hc _ List.mem_cons_self) hs
    exact ⟨c', hr1.next hs', hR'⟩

/-- A bid that takes an ask whole and rests, and its mirror image. -/
theorem run_relabel_mirror :
    let fill := observe (some recorder)
    let w1 := (add fill (.limit .ask 100 3 1) ((empty : OptionOrderBook 10), [])).2
    let w := (add fill (.limit .bid 101 5 2) w1).2
    w.2 = [1] ∧ ∃ b', (calls (some recorder) []).Run
      [.add (.limit .ask (-101) 5 2) true, .add (.limit .bid (-100) 3 1) true] (b', [1]) ∧
      Relabels .mirror w.1 b' := by
  intro fill w1 w
  have hr1 : (calls (some recorder) []).Run [.add (.limit .ask 100 3 1) true] w1 :=
    calls_add (.start rfl) _ (by decide)
  have hr : (calls (some recorder) []).Run
      [.add (.limit .bid 101 5 2) true, .add (.limit .ask 100 3 1) true] w :=
    calls_add hr1 _ (by decide)
  have hids : w.2 = [1] := by decide
  have hw : w = (w.1, [1]) := Prod.ext rfl hids
  rw [hw] at hr
  refine ⟨hids, run_relabel (ρ := .mirror) hr fun e he => ?_⟩
  rcases List.mem_pair.mp he with rfl | rfl <;> trivial

end OptionOrderBook

end Mms
