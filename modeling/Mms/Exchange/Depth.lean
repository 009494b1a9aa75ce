import Mms.Exchange.Reentry
import Mms.Lib.Units

/-!
# Depth

The depth of a book at a price is the quantity resting there, in however many orders. A container
is sorted by price, so its units, written out price by price (`units`), are determined by its
depths (`units_eq`), and a match only drops units from the front of that list. So what an
aggressor takes and what it leaves depend on the depths alone.

* `depth_decides`: `add` does the same to two books of the same depths.
-/

namespace Mms

open Lib

namespace OptionOrderBook

variable {SIZE SIZE' : ℕ} {σ σ' : Type} {b : OptionOrderBook SIZE} {b' : OptionOrderBook SIZE'}

/-- The quantity resting on side `s` at price `p`. -/
def depth (b : OptionOrderBook SIZE) (s : Side) (p : Price32) : ℕ :=
  total (fun x : Order => x.price == p) (b.getContainer s)

/-- Two books have the same depths. -/
def SameDepth (b : OptionOrderBook SIZE) (b' : OptionOrderBook SIZE') : Prop :=
  ∀ s p, b.depth s p = b'.depth s p

/-- The prices of the units resting on a side, best first. -/
def priceUnits (b : OptionOrderBook SIZE) (s : Side) : List Price32 :=
  units Order.price (b.getContainer s)

theorem depth_eq_count (b : OptionOrderBook SIZE) (s : Side) (p : Price32) :
    b.depth s p = (b.priceUnits s).count p := (count_units p _).symm

/-- **The depths of a sorted container are all its units.** -/
theorem priceUnits_eq (h : Sound [] b) (h' : Sound [] b') (hd : SameDepth b b') (s : Side) :
    b.priceUnits s = b'.priceUnits s :=
  units_eq_of_total s.ahead_refl (fun _ _ => Side.ahead_antisymm) (h.sorted s) (h'.sorted s)
    (hd s)

/-- What an aggressor leaves over depends on the opposite units. -/
theorem swept_left_units (h : Sound [] b) (o : Order) :
    (b.swept o).left = o.qty.toNat -
      (b.priceUnits o.side.opp).countP fun p => decide (o.side.opp.ahead p o.price) := by
  unfold priceUnits swept
  rw [countP_units, sweep_left (h.front o.side o.price)]
  rfl

/-- A match drops units from the front. -/
theorem afterMatch_units (b : OptionOrderBook SIZE) (o : Order) :
    (b.afterMatch o).priceUnits o.side.opp =
      (b.priceUnits o.side.opp).drop (o.qty.toNat - (b.swept o).left) := by
  unfold priceUnits
  rw [afterMatch_opp]
  exact units_sweep Order.reduce_price _ _ _

theorem depth_put (b : OptionOrderBook SIZE) (o : Order) (s : Side) (p : Price32) :
    (b.put o).depth s p =
      (if s = o.side ∧ o.price = p then o.qty.toNat else 0) + b.depth s p := by
  unfold depth
  rcases o.side.eq_or_eq_opp s with rfl | rfl
  · rw [put_own, total_perm (List.perm_orderedInsert _ _ _), total_cons]
    simp [Order.qty_eq]
  · rw [put_opp]
    simp [o.side.opp_ne]

/-! ## One call on two books -/

/-- An aggressor leaves over the same on books of the same depths. -/
theorem SameDepth.left (h : Sound [] b) (h' : Sound [] b') (hd : SameDepth b b') (o : Order) :
    (b.swept o).left = (b'.swept o).left := by
  rw [swept_left_units h, swept_left_units h', priceUnits_eq h h' hd]

theorem SameDepth.afterMatch (h : Sound [] b) (h' : Sound [] b') (hd : SameDepth b b')
    (o : Order) : SameDepth (b.afterMatch o) (b'.afterMatch o) := by
  intro s p
  rcases o.side.eq_or_eq_opp s with rfl | rfl
  · unfold depth
    rw [afterMatch_own, afterMatch_own]
    exact hd _ p
  · rw [depth_eq_count, depth_eq_count, afterMatch_units, afterMatch_units, hd.left h h',
      priceUnits_eq h h' hd]

theorem SameDepth.rested (h : Sound [] b) (h' : Sound [] b') (hd : SameDepth b b') (o : Order) :
    SameDepth (b.rested o) (b'.rested o) := by
  intro s p
  have hrem : b.remainder o = b'.remainder o := by
    unfold remainder
    rw [hd.left h h']
  rw [rested_eq, rested_eq, depth_put, depth_put, hd.afterMatch h h' o s p, hrem]

/-- **Depth decides.** On two attainable books of the same depths, however these are divided into
orders, a valid order for which there is room and whose id rests in neither is answered alike by
`add`, consumes the same quantity, and leaves books of the same depths. -/
theorem depth_decides {b : OptionOrderBook SIZE} {b' : OptionOrderBook SIZE'} (ha : Attainable b)
    (ha' : Attainable b') (hd : SameDepth b b') (fill : Option (Observer SIZE σ))
    (fill' : Option (Observer SIZE' σ')) (s : σ) (s' : σ') {o : Order} (hv : o.isValid = true)
    (hid : b.has o.id = false) (hid' : b'.has o.id = false)
    (hs : (b.getContainer o.side).length < SIZE)
    (hs' : (b'.getContainer o.side).length < SIZE') :
    let added := add (observe fill) o (b, s)
    let added' := add (observe fill') o (b', s')
    added.1 = added'.1 ∧
      (tryMatch (observe fill) o (b, s)).consumed = (tryMatch (observe fill') o (b', s')).consumed ∧
      SameDepth added.2.1 added'.2.1 := by
  intro added added'
  have h := ha.sound
  have h' := ha'.sound
  have hleft := hd.left h h' o
  have he := add_room h fill s hv hid hs
  have he' := add_room h' fill' s' hv hid' hs'
  rw [← hleft] at he'
  refine ⟨?_, ?_, ?_⟩
  · simp only [added, added', he, he']
  · rw [tryMatch_eq h, tryMatch_eq h', hleft]
  · simp only [added, added', he, he']
    split
    · exact hd.rested h h' o
    · exact hd.afterMatch h h' o

/-- Five units at 100 in one order or in two, and a bid that takes four of them. -/
theorem depth_decides_two :
    let b := (empty : OptionOrderBook 10).afterAdd (.limit .ask 100 5 1)
    let b' := ((empty : OptionOrderBook 20).afterAdd (.limit .ask 100 2 7)).afterAdd
      (.limit .ask 100 3 8)
    let added := add (observe none) (.limit .bid 101 4 3) (b, ())
    let added' := add (observe (some recorder)) (.limit .bid 101 4 3) (b', [])
    added.1 = added'.1 ∧
      (tryMatch (observe none) (.limit .bid 101 4 3) (b, ())).consumed =
        (tryMatch (observe (some recorder)) (.limit .bid 101 4 3) (b', [])).consumed ∧
      SameDepth added.2.1 added'.2.1 := by
  intro b b'
  have ha : Attainable b := (reachable_empty.afterAdd _).attainable
  have ha' : Attainable b' := ((reachable_empty.afterAdd _).afterAdd _).attainable
  have hd : SameDepth b b' := by
    intro s p
    have hb : b.bids = [] ∧ b.asks = [.limit .ask 100 5 1] := by decide
    have hb' : b'.bids = [] ∧ b'.asks = [.limit .ask 100 3 8, .limit .ask 100 2 7] := by decide
    cases s with
    | bid => simp only [depth, getContainer, hb.1, hb'.1, total_nil]
    | ask =>
      simp only [depth, getContainer, hb.2, hb'.2, total_cons, total_nil]
      split <;> simp_all [Order.limit, Order.qty_eq]
  exact depth_decides ha ha' hd none (some recorder) () [] (o := .limit .bid 101 4 3) (by decide)
    (by decide) (by decide) (by decide) (by decide)

end OptionOrderBook

end Mms
