import Mms.Exchange.Ladder

/-!
# Submissions that do not trade

A batch of orders none of which trades with the book or with another one of the batch, with room for
all of them: in which order they are submitted matters for those of one side and price only.

* `addAll`: the orders of a batch, one `add` after the other.
* `Passive.step`: the first order of a passive batch comes to rest, and the others stay passive.
* `ladder_foldl_put`: on the ladder the batch puts at each price its orders of that price, latest
  first, in front of those that were there.
* `batch_order`: so two orders of submission end in one book iff they agree price by price.
-/

namespace Mms

open Lib

namespace OptionOrderBook

variable {SIZE : ℕ} {σ : Type} {b : OptionOrderBook SIZE} {os os' : List Order}

/-- The orders are submitted one after the other: the answers, and what they leave. -/
def addAll (fill : Option (FillFn SIZE σ)) :
    List Order → OptionOrderBook SIZE × σ → List Bool × OptionOrderBook SIZE × σ
  | [], w => ([], w)
  | o :: os, w =>
    let (added, w) := add fill o w
    let (answers, w) := addAll fill os w
    (added :: answers, w)

/-- The orders trade neither with the book nor with each other, and there is room for all. -/
structure Passive (b : OptionOrderBook SIZE) (os : List Order) : Prop where
  valid : ∀ o ∈ os, o.isValid = true
  fresh : ∀ o ∈ os, b.has o.id = false
  ids : (os.map Order.id).Nodup
  quiet : ∀ o ∈ os, ∀ x ∈ b.getContainer o.side.opp, Order.tradeable o.side o.price x = false
  apart : ∀ o ∈ os, ∀ x ∈ os, x.side = o.side.opp → Order.tradeable o.side o.price x = false
  room : ∀ s, (b.getContainer s).length + (os.filter fun o => o.side = s).length ≤ SIZE

/-- The orders of the batch at a price of a side, in the order of their submission. -/
def submittedAt (os : List Order) (s : Side) (p : Price32) : List Order :=
  os.filter fun o => s = o.side ∧ o.price = p

/-- The order of the submissions does not make a batch passive. -/
theorem Passive.perm (hp : Passive b os) (h : os.Perm os') : Passive b os' where
  valid o ho := hp.valid o (h.mem_iff.mpr ho)
  fresh o ho := hp.fresh o (h.mem_iff.mpr ho)
  ids := (h.map Order.id).nodup_iff.mp hp.ids
  quiet o ho := hp.quiet o (h.mem_iff.mpr ho)
  apart o ho x hx := hp.apart o (h.mem_iff.mpr ho) x (h.mem_iff.mpr hx)
  room s := by
    rw [← (h.filter _).length_eq]
    exact hp.room s

/-- **The first order comes to rest**, as it is. -/
theorem Passive.add {o : Order} (hp : Passive b (o :: os)) (h : Inv b)
    (fill : Option (Observer SIZE σ)) (s : σ) :
    OptionOrderBook.add (observe fill) o (b, s) = (true, b.put o, s) := by
  have hmem : o ∈ o :: os := List.mem_cons_self
  have hv := hp.valid o hmem
  have hn := hp.quiet o hmem
  have hroom : (b.getContainer o.side).length < SIZE := by
    have hroom := hp.room o.side
    rw [List.filter_cons_of_pos (by simp), List.length_cons] at hroom
    omega
  have hleft : (b.swept o).left = o.qty.toNat := by
    rw [swept_none hn]
  have hids : b.filledIds o = [] := by
    rw [filledIds, swept_none hn]
    rfl
  have hrem : b.remainder o = o := by
    rw [remainder, hleft]
    simp
  rw [add_room h.sound fill s hv (hp.fresh o hmem) hroom, hleft,
    if_pos (Order.isValid_iff.mp hv).2, rested_eq, afterMatch_none hn, hrem, hids]
  simp [(Order.isValid_iff.mp hv).2, notified]

/-- **The others stay passive.** -/
theorem Passive.step {o : Order} (hp : Passive b (o :: os)) : Passive (b.put o) os := by
  have hmem : ∀ x ∈ os, x ∈ o :: os := fun x hx => List.mem_cons_of_mem o hx
  have hids := hp.ids
  rw [List.map_cons, List.nodup_cons] at hids
  constructor
  · exact fun x hx => hp.valid x (hmem x hx)
  · intro x hx
    have hne : x.id ≠ o.id := fun he => hids.1 (List.mem_map.mpr ⟨x, hx, he⟩)
    have hfresh := has_eq_false_iff.mp (hp.fresh x (hmem x hx))
    rw [has_eq_false_iff, put_index, Finmap.lookup_insert_of_ne _ hne, hfresh]
  · exact hids.2
  · intro x hx y hy
    rcases mem_put.mp hy with ⟨hside, rfl⟩ | hy
    · exact hp.apart x (hmem x hx) y List.mem_cons_self hside.symm
    · exact hp.quiet x (hmem x hx) y hy
  · exact fun x hx y hy => hp.apart x (hmem x hx) y (hmem y hy)
  · intro s
    have hroom := hp.room s
    rcases o.side.eq_or_eq_opp s with rfl | rfl
    · rw [List.filter_cons_of_pos (by simp), List.length_cons] at hroom
      rw [put_own, List.orderedInsert_length]
      omega
    · rw [List.filter_cons_of_neg (by simp [o.side.opp_ne.symm])] at hroom
      rwa [put_opp]

/-- **A passive batch** is accepted, makes no call, and comes to rest order by order. -/
theorem addAll_passive (hb : Reachable b) (hp : Passive b os) (fill : Option (Observer SIZE σ))
    (s : σ) : addAll (observe fill) os (b, s) =
      (List.replicate os.length true, os.foldl put b, s) ∧ Reachable (os.foldl put b) := by
  induction os generalizing b with
  | nil => exact ⟨rfl, hb⟩
  | cons o os ih =>
    have hadd := hp.add (reachable_inv hb) fill s
    have hreach : Reachable (b.put o) := by
      have hnext := hb.add fill o s
      rwa [hadd] at hnext
    obtain ⟨hrest, hend⟩ := ih hreach hp.step
    refine ⟨?_, hend⟩
    simp only [addAll, hadd, hrest, List.length_cons, List.replicate_succ, List.foldl_cons]

/-! ## On the ladder -/

/-- **What a batch puts at each price.** -/
theorem ladder_foldl_put (os : List Order) (b : OptionOrderBook SIZE) (s : Side) (p : Price32) :
    (os.foldl put b).ladder s p = (submittedAt os s p).reverse ++ b.ladder s p := by
  induction os generalizing b with
  | nil => rfl
  | cons o os ih =>
    rw [List.foldl_cons, ih, ladder_put, Ladder.put, submittedAt, submittedAt, List.filter_cons]
    simp only [decide_eq_true_eq]
    split
    · rw [List.reverse_cons, List.append_assoc, List.singleton_append]
    · rfl

/-- **When the order of the submissions matters.** Two orders of submission of a passive batch: all
answers are `true` and no call is made. The books left are one and the same iff at every price of
each side the same orders were submitted in the same order. -/
theorem batch_order (hb : Reachable b) (hp : Passive b os) (hperm : os.Perm os')
    (fill : Option (Observer SIZE σ)) (s : σ) :
    let first := addAll (observe fill) os (b, s)
    let second := addAll (observe fill) os' (b, s)
    (first.1 = List.replicate os.length true ∧ second.1 = first.1) ∧
      (first.2.2 = s ∧ second.2.2 = s) ∧
      (first.2.1 = second.2.1 ↔ ∀ side p, submittedAt os side p = submittedAt os' side p) := by
  intro first second
  obtain ⟨hfirst, hend⟩ : first = _ ∧ _ := addAll_passive hb hp fill s
  obtain ⟨hsecond, hend'⟩ : second = _ ∧ _ := addAll_passive hb (hp.perm hperm) fill s
  rw [hfirst, hsecond]
  refine ⟨⟨rfl, by rw [hperm.length_eq]⟩, ⟨rfl, rfl⟩, ⟨fun he side p => ?_, fun he => ?_⟩⟩
  · have hladder := congrArg (fun b => b.ladder side p) he
    simp only [ladder_foldl_put] at hladder
    exact List.reverse_injective (List.append_cancel_right hladder)
  · refine eq_of_ladder (reachable_inv hend) (reachable_inv hend') ?_
    funext side p
    rw [ladder_foldl_put, ladder_foldl_put, he]

/-- Three quotes: the two asks at 101 keep their order. -/
theorem batch_order_quotes :
    let os : List Order := [.limit .ask 101 2 1, .limit .bid 100 3 2, .limit .ask 101 4 3]
    let os' : List Order := [.limit .ask 101 2 1, .limit .ask 101 4 3, .limit .bid 100 3 2]
    (addAll (observe (none : Option (Observer 10 Unit))) os (empty, ())).2.1 =
      (addAll (observe (none : Option (Observer 10 Unit))) os' (empty, ())).2.1 := by
  intro os os'
  have hp : Passive (empty : OptionOrderBook 10) os :=
    ⟨by decide, by decide, by decide, by decide, by decide, fun s => by cases s <;> decide⟩
  have hperm : os.Perm os' := by decide
  refine (batch_order reachable_empty hp hperm none ()).2.2.mpr fun side p => ?_
  simp only [os, os', submittedAt, List.filter_cons, List.filter_nil]
  cases side <;> simp [Order.limit]

end OptionOrderBook

end Mms
