import Mms.Exchange.Calls
import Mms.Lib.Levels

/-!
# The book as a ladder of price levels

`Ladder` is the abstract book: at every price of each side the orders resting there, front first.
It has no containers, no index and no searches. Its operations say what a book is for:

* `matched`: an incoming order takes from every price it trades with what the better prices leave;
* `put`: an order comes to rest in front of the orders of its own price;
* `add`: match, then refuse or put the rest.

`OptionOrderBook.ladder` reads a book as a ladder.

* `ladder_afterMatch`, `ladder_put`, `ladder_without`: the book's operations are the ladder's.
* `refines_ladder`: the runs of the books are, call by call and result by result, the runs of the
  ladder.
* `ladder_faithful`: a book is determined by its ladder.
-/

namespace Mms

open Lib

/-- The orders resting at each price, front first. -/
abbrev Ladder := Side → Price32 → List Order

namespace Ladder

/-- The ladder with no orders. -/
def empty : Ladder := fun _ _ => []

/-- The units of a side at the prices that `P` picks. -/
noncomputable def units (L : Ladder) (s : Side) (P : Price32 → Prop) [DecidablePred P] : ℕ :=
  ∑ᶠ p, if P p then ((L s p).map Lot.qty).sum else 0

/-- The number of orders of a side. -/
noncomputable def count (L : Ladder) (s : Side) : ℕ := ∑ᶠ p, (L s p).length

/-- An order with the id rests somewhere. -/
def Has (L : Ladder) (id : UInt32) : Prop := ∃ s p, ∃ x ∈ L s p, x.id = id

/-- The units of `o` that find no counterpart. -/
noncomputable def left (L : Ladder) (o : Order) : ℕ :=
  o.qty.toNat - L.units o.side.opp fun p => o.side.opp.ahead p o.price

/-- The ladder after `o` was matched: each price of the other side is swept for what the strictly
better prices leave of `o`. -/
noncomputable def matched (L : Ladder) (o : Order) : Ladder := fun s p =>
  if s = o.side.opp then
    (sweep (Order.tradeable o.side o.price)
      (o.qty.toNat - L.units s (StrictlyAhead s.ahead p)) (L s p)).rest
  else L s p

/-- The ladder with `o` in front of the orders of its price. -/
def put (L : Ladder) (o : Order) : Ladder := fun s p =>
  if s = o.side ∧ o.price = p then o :: L s p else L s p

/-- The ladder less the order of the id. -/
def without (L : Ladder) (id : UInt32) : Ladder := fun s p =>
  (L s p).filter fun x => !([id].contains x.id)

open Classical in
/-- An order arrives where a side holds at most `SIZE` orders: the answer, and the ladder left. -/
noncomputable def add (SIZE : ℕ) (L : Ladder) (o : Order) : Bool × Ladder :=
  if o.isValid = false then (false, L)
  else if L.left o = 0 then (false, L.matched o)
  else if (L.matched o).Has o.id ∨ L.count o.side = SIZE then (false, L.matched o)
  else (true, (L.matched o).put { o with qty := UInt32.ofNat (L.left o) })

/-- The call of `e` on the ladder `L` returns what `e` says and leaves `L'`. -/
def Happens (SIZE : ℕ) (L : Ladder) : Event → Ladder → Prop
  | .add o r, L' => L.add SIZE o = (r, L')
  | .remove id r, L' => (r = true ↔ L.Has id) ∧ L' = L.without id
  | .tryMatch o n, L' => n.toNat = o.qty.toNat - L.left o ∧ L' = L.matched o

/-- The runs of a ladder. -/
def ladders (SIZE : ℕ) : LTS Ladder Event where
  init L := L = empty
  step := Happens SIZE

end Ladder

namespace OptionOrderBook

variable {SIZE : ℕ}

/-- The book, price by price. -/
def ladder (b : OptionOrderBook SIZE) : Ladder := fun s p => level Order.price (b.getContainer s) p

theorem ladder_empty : (empty : OptionOrderBook SIZE).ladder = Ladder.empty := by
  funext s p
  rw [ladder, getContainer_empty]
  rfl

/-! ## What a ladder says of a book -/

theorem ladder_units (b : OptionOrderBook SIZE) (s : Side) (P : Price32 → Prop)
    [DecidablePred P] : b.ladder.units s P =
      total (fun x : Order => decide (P x.price)) (b.getContainer s) :=
  finsum_level Lot.qty P (b.getContainer s)

theorem ladder_count (b : OptionOrderBook SIZE) (s : Side) :
    b.ladder.count s = (b.getContainer s).length := by
  have hsum : (∑ᶠ p, if True then ((b.ladder s p).map fun _ => 1).sum else 0) =
      (((b.getContainer s).filter fun _ => True).map fun _ => 1).sum :=
    finsum_level (fun _ => 1) (fun _ => True) (b.getContainer s)
  simp only [if_true, decide_true, List.filter_true, List.map_const', List.sum_replicate,
    smul_eq_mul, mul_one] at hsum
  exact hsum

theorem ladder_has {b : OptionOrderBook SIZE} (h : Indexed b) (id : UInt32) :
    b.ladder.Has id ↔ b.has id = true := by
  rw [has_iff]
  simp only [h.index]
  constructor
  · rintro ⟨s, p, x, hx, he⟩
    exact ⟨s, x, (mem_level.mp hx).1, he⟩
  · rintro ⟨s, x, hx, he⟩
    exact ⟨s, x.price, x, mem_level.mpr ⟨hx, rfl⟩, he⟩

theorem ladder_left {b : OptionOrderBook SIZE} (h : Sound [] b) (o : Order) :
    b.ladder.left o = (b.swept o).left := by
  rw [Ladder.left, ladder_units, swept, sweep_left (h.front o.side o.price)]
  rfl

/-! ## The operations -/

/-- **Matching, price by price.** -/
theorem ladder_afterMatch {b : OptionOrderBook SIZE} (h : Sound [] b) (o : Order) :
    (b.afterMatch o).ladder = b.ladder.matched o := by
  funext s p
  unfold Ladder.matched
  split
  · rename_i hs
    subst hs
    rw [ladder_units, ladder, afterMatch_opp, swept]
    exact (level_sweep (R := o.side.opp.ahead) o.side.opp.ahead_refl
      (fun _ _ => Side.ahead_antisymm) Order.reduce_price (h.sorted o.side.opp)
      (h.front o.side o.price) p).2
  · rename_i hs
    have hside : s = o.side := (o.side.eq_or_eq_opp s).resolve_right hs
    subst hside
    rw [ladder, afterMatch_own]
    rfl

/-- **An order comes to rest** in front of its price. -/
theorem ladder_put (b : OptionOrderBook SIZE) (o : Order) : (b.put o).ladder = b.ladder.put o := by
  funext s p
  unfold Ladder.put
  rcases o.side.eq_or_eq_opp s with rfl | rfl
  · have hranks : ∀ x y, Order.Ranks o.side x y ↔ o.side.ahead x.price y.price :=
      fun _ _ => Iff.rfl
    rw [ladder, put_own, level_orderedInsert hranks o.side.ahead_refl]
    simp only [true_and]
    rfl
  · rw [ladder, put_opp, if_neg fun hs => o.side.opp_ne hs.1]
    rfl

theorem ladder_without (b : OptionOrderBook SIZE) (id : UInt32) :
    (b.without [id]).ladder = b.ladder.without id := by
  funext s p
  rw [ladder, getContainer_without, level_filter]
  rfl

/-- **Every outcome of `add`** is what the ladder does with the order. -/
theorem AddOutcome.ladder {b b' : OptionOrderBook SIZE} {o : Order} {r : Bool} {ids : List UInt32}
    (h : Inv b) (ho : AddOutcome b o r b' ids) : b.ladder.add SIZE o = (r, b'.ladder) := by
  have hm := ladder_afterMatch h.sound o
  have hhas := ladder_has (afterMatch_inv h o).toIndexed o.id
  rw [hm] at hhas
  unfold Ladder.add
  rw [ladder_left h.sound, ladder_count, hhas]
  cases ho with
  | invalid hv => rw [if_pos hv]
  | filled hv hl => rw [if_neg (by simp [hv]), if_pos hl, hm]
  | rejected hv hl hr => rw [if_neg (by simp [hv]), if_neg (by omega), if_pos hr, hm]
  | rested hv hl hid hs =>
    have hno : ¬ ((b.afterMatch o).has o.id = true ∨ (b.getContainer o.side).length = SIZE) := by
      rw [hid]
      simp only [Bool.false_eq_true, false_or]
      omega
    rw [if_neg (by simp [hv]), if_neg (by omega), if_neg hno, rested_eq, ladder_put, hm]
    rfl

/-! ## Every run -/

/-- A call on a book is the call on its ladder. -/
theorem Happens.ladder {σ : Type} {fill : Option (Observer SIZE σ)}
    {w w' : OptionOrderBook SIZE × σ} {e : Event} (h : Inv w.1) (hs : Happens fill w e w') :
    w.1.ladder.Happens SIZE e w'.1.ladder := by
  cases e with
  | add o r =>
    obtain ⟨ids, ho, -⟩ := Happens.add h hs
    exact ho.ladder h
  | remove id r =>
    obtain ⟨hr, hb, -⟩ := Happens.remove h hs
    refine ⟨?_, ?_⟩
    · rw [hr, ladder_has h.toIndexed]
    · rw [hb, ladder_without]
  | tryMatch o n =>
    obtain ⟨hn, hb, -⟩ := Happens.tryMatch h hs
    refine ⟨?_, ?_⟩
    · rw [hn, ladder_left h.sound]
    · rw [hb, ladder_afterMatch h.sound]

/-- **One call on the ladder is one call on the book.** -/
theorem happens_iff {b : OptionOrderBook SIZE} (h : Inv b) (e : Event) (L' : Ladder) :
    b.ladder.Happens SIZE e L' ↔ ∃ b', (bookCalls SIZE).step b e b' ∧ b'.ladder = L' := by
  constructor
  · intro hL
    -- the call without a callback: its result and its ladder are those of `hL`
    let fill : Option (Observer SIZE Unit) := none
    cases e with
    | add o r =>
      have hs : Happens fill (b, ()) (.add o (OptionOrderBook.add (observe fill) o (b, ())).1)
        (OptionOrderBook.add (observe fill) o (b, ())).2 := rfl
      have hadd := (Happens.ladder h hs).symm.trans hL
      obtain ⟨hr, hb⟩ := Prod.mk.inj hadd
      subst hr
      exact ⟨_, ⟨Unit, fill, (), (), hs⟩, hb⟩
    | remove id r =>
      have hs : Happens fill (b, ()) (.remove id (b.remove id).1) ((b.remove id).2, ()) :=
        ⟨rfl, rfl⟩
      obtain ⟨hr, hb⟩ := Happens.ladder h hs
      have he : (b.remove id).1 = r := by
        rw [Bool.eq_iff_iff, hr, hL.1]
      rw [he] at hs
      exact ⟨_, ⟨Unit, fill, (), (), hs⟩, hb.trans hL.2.symm⟩
    | tryMatch o n =>
      have hs : Happens fill (b, ())
        (.tryMatch o (OptionOrderBook.tryMatch (observe fill) o (b, ())).consumed)
        (OptionOrderBook.tryMatch (observe fill) o (b, ())).world := ⟨rfl, rfl⟩
      obtain ⟨hn, hb⟩ := Happens.ladder h hs
      have he : (OptionOrderBook.tryMatch (observe fill) o (b, ())).consumed = n :=
        UInt32.toNat_inj.mp (hn.trans hL.1.symm)
      rw [he] at hs
      exact ⟨_, ⟨Unit, fill, (), (), hs⟩, hb.trans hL.2.symm⟩
  · rintro ⟨b', ⟨σ, fill, s, s', hs⟩, rfl⟩
    exact Happens.ladder (w := (b, s)) h hs

/-- **The book refines the ladder.** The histories of calls and results of a book are those of the
ladder, and after each of them the ladder is the one the book shows. -/
theorem refines_ladder {h : List Event} {L : Ladder} :
    (Ladder.ladders SIZE).Run h L ↔ ∃ b, (bookCalls SIZE).Run h b ∧ b.ladder = L := by
  constructor
  · intro hr
    induction hr with
    | start h0 => exact ⟨empty, .start rfl, ladder_empty.trans (Eq.symm h0)⟩
    | next _ hs ih =>
      obtain ⟨b, hb, rfl⟩ := ih
      obtain ⟨b', hstep, he⟩ := (happens_iff (reachable_inv ⟨_, hb⟩) _ _).mp hs
      exact ⟨b', hb.next hstep, he⟩
  · rintro ⟨b, hb, rfl⟩
    induction hb with
    | start h0 =>
      have h0' : _ = empty := h0
      rw [h0']
      exact .start ladder_empty
    | next hb hs ih =>
      exact ih.next ((happens_iff (reachable_inv ⟨_, hb⟩) _ _).mpr ⟨_, hs, rfl⟩)

/-- The containers are sorted, so their orders can be put together again. -/
theorem eq_of_ladder {b b' : OptionOrderBook SIZE} (h : Inv b) (h' : Inv b')
    (he : b.ladder = b'.ladder) : b = b' := by
  have hc : ∀ s, b.getContainer s = b'.getContainer s := fun s =>
    eq_of_level (R := s.ahead) s.ahead_refl (fun _ _ => Side.ahead_antisymm) (h.sorted s)
      (h'.sorted s) fun p => congrFun (congrFun he s) p
  refine ext_containers hc (Finmap.ext_lookup fun id => Option.ext fun s => ?_)
  rw [h.index, h'.index, hc]

/-- **A book is its ladder**: two reachable books with the same orders at every price, in the same
order, have the same containers and the same index. -/
theorem ladder_faithful {b b' : OptionOrderBook SIZE} (hr : Reachable b) (hr' : Reachable b')
    (he : b.ladder = b'.ladder) : b = b' :=
  eq_of_ladder (reachable_inv hr) (reachable_inv hr') he

/-- Two asks, whichever of them comes first. -/
theorem ladder_faithful_two :
    let b := ((empty : OptionOrderBook 2).afterAdd (.limit .ask 100 2 1)).afterAdd
      (.limit .ask 101 3 2)
    let b' := ((empty : OptionOrderBook 2).afterAdd (.limit .ask 101 3 2)).afterAdd
      (.limit .ask 100 2 1)
    b = b' := by
  intro b b'
  have hc : ∀ s, b.getContainer s = b'.getContainer s := by
    intro s
    cases s <;> decide
  refine ladder_faithful ((reachable_empty.afterAdd _).afterAdd _)
    ((reachable_empty.afterAdd _).afterAdd _) ?_
  funext s p
  rw [ladder, ladder, hc]

end OptionOrderBook

end Mms
