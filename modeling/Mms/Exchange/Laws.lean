import Mms.Exchange.Reentry

/-!
# Laws of the book's operations

Two runs of calls that end in the same book. All three laws hold on every attainable book, also on
one whose prices cross.

* `split_aggressor`: matching `q1 + q2` units is matching `q1` and then `q2`.
* `cancel_commutes`: a cancellation and a submission that has nothing to do with it can change
  places.
* `cancel_restores`: cancelling what `add` put to rest leaves what `try_match` alone leaves.

A callback that reads the book sees in the middle of the two runs different books. The first two
laws are about callbacks that hear the id only (`told`); the third one holds whatever the callback
does, also when it calls back in.
-/

namespace Mms

open Lib

namespace OptionOrderBook

variable {SIZE : ℕ} {σ : Type} {b : OptionOrderBook SIZE}

/-- A callback that hears the id and does not look at the book; `none` is the empty function. -/
def told (heard : Option (UInt32 → σ → σ)) : Option (Observer SIZE σ) :=
  heard.map fun g id _ s => g id s

/-- What becomes of the state of such a callback. -/
def hears (heard : Option (UInt32 → σ → σ)) (ids : List UInt32) (s : σ) : σ :=
  match heard with
  | none => s
  | some g => ids.foldl (fun s id => g id s) s

theorem notified_told (heard : Option (UInt32 → σ → σ)) (ids : List UInt32)
    (b : OptionOrderBook SIZE) (s : σ) : notified (told heard) ids b s = hears heard ids s := by
  induction ids generalizing b s with
  | nil => cases heard <;> rfl
  | cons id ids ih =>
    cases heard with
    | none => exact ih _ _
    | some g => exact ih _ _

theorem hears_append (heard : Option (UInt32 → σ → σ)) (ids ids' : List UInt32) (s : σ) :
    hears heard (ids ++ ids') s = hears heard ids' (hears heard ids s) := by
  cases heard with
  | none => rfl
  | some g => exact List.foldl_append

/-! ## Splitting an aggressor -/

theorem eraseAll_append (m : MapT) (ids ids' : List UInt32) :
    eraseAll m (ids ++ ids') = eraseAll (eraseAll m ids) ids' := List.foldl_append

/-- The sweep of a split aggressor, part by part. -/
theorem swept_parts {o o1 o2 : Order} (h1 : o1.side = o.side ∧ o1.price = o.price)
    (h2 : o2.side = o.side ∧ o2.price = o.price)
    (hq : o.qty.toNat = o1.qty.toNat + o2.qty.toNat) (b : OptionOrderBook SIZE) :
    b.filledIds o = b.filledIds o1 ++ (b.afterMatch o1).filledIds o2 ∧
      (b.swept o).rest = ((b.afterMatch o1).swept o2).rest ∧
      (b.swept o).left = (b.swept o1).left + ((b.afterMatch o1).swept o2).left := by
  have hopp : (b.afterMatch o1).getContainer o.side.opp =
      (sweep (Order.tradeable o.side o.price) o1.qty.toNat (b.getContainer o.side.opp)).rest := by
    rw [← h1.1, afterMatch_opp, swept, h1.2]
  have hsplit := sweep_add (f := Order.id) Order.reduce_id
    (Order.tradeable_reduce o.side o.price) Order.reduce_reduce o1.qty.toNat o2.qty.toNat
    (b.getContainer o.side.opp)
  unfold filledIds swept
  rw [h1.1, h1.2, h2.1, h2.2, hopp, hq]
  exact hsplit

theorem afterMatch_split {o o1 o2 : Order} (h1 : o1.side = o.side ∧ o1.price = o.price)
    (h2 : o2.side = o.side ∧ o2.price = o.price)
    (hq : o.qty.toNat = o1.qty.toNat + o2.qty.toNat) (b : OptionOrderBook SIZE) :
    b.afterMatch o = (b.afterMatch o1).afterMatch o2 := by
  obtain ⟨hids, hrest, -⟩ := swept_parts h1 h2 hq b
  have hown1 := afterMatch_own b o1
  have hown2 := afterMatch_own (b.afterMatch o1) o2
  have hopp2 := afterMatch_opp (b.afterMatch o1) o2
  rw [h1.1] at hown1
  rw [h2.1] at hown2 hopp2
  refine ext_containers (fun s => ?_) ?_
  · rcases o.side.eq_or_eq_opp s with rfl | rfl
    · rw [afterMatch_own, hown2, hown1]
    · rw [afterMatch_opp, hopp2, hrest]
  · have hm : (b.afterMatch o).orderIdsToSide = eraseAll b.orderIdsToSide (b.filledIds o) := rfl
    rw [hm, hids, eraseAll_append]
    rfl

/-- **Splitting an aggressor changes nothing.** An aggressor of the units of two, at their side and
price, leaves the book and the callback where the two leave them one after the other, and consumes
what they consume together. -/
theorem split_aggressor {b : OptionOrderBook SIZE} (ha : Attainable b)
    (heard : Option (UInt32 → σ → σ)) (s : σ) {o o1 o2 : Order}
    (h1 : o1.side = o.side ∧ o1.price = o.price) (h2 : o2.side = o.side ∧ o2.price = o.price)
    (hq : o.qty.toNat = o1.qty.toNat + o2.qty.toNat) :
    let fill := observe (told heard)
    let first := tryMatch fill o1 (b, s)
    let second := tryMatch fill o2 first.world
    (tryMatch fill o (b, s)).world = second.world ∧
      (tryMatch fill o (b, s)).consumed.toNat = first.consumed.toNat + second.consumed.toNat := by
  intro fill first second
  have h := ha.sound
  have hm := h.afterMatch o1
  obtain ⟨hids, -, hleft⟩ := swept_parts h1 h2 hq b
  have hfirst : first.world = (b.afterMatch o1, hears heard (b.filledIds o1) s) := by
    simp only [first, fill, tryMatch_eq h, notified_told]
  have hsecond : second = tryMatch fill o2 (b.afterMatch o1, hears heard (b.filledIds o1) s) :=
    congrArg (tryMatch fill o2) hfirst
  constructor
  · rw [hsecond]
    simp only [fill, tryMatch_eq h, tryMatch_eq hm, notified_told, hids, hears_append,
      afterMatch_split h1 h2 hq b]
  · have hle1 := b.swept_left_le o1
    have hle2 := (b.afterMatch o1).swept_left_le o2
    rw [hsecond]
    simp only [first, fill, tryMatch_consumed h, tryMatch_consumed hm]
    omega

/-- The first part ends inside the second ask, and the callback writes down its calls. -/
theorem split_aggressor_two :
    let b := ((empty : OptionOrderBook 10).afterAdd (.limit .ask 100 2 1)).afterAdd
      (.limit .ask 101 3 2)
    let fill := observe (told (some fun id calls => calls ++ [id]))
    let first := tryMatch fill (.limit .bid 101 4 3) (b, ([] : List UInt32))
    let second := tryMatch fill (.limit .bid 101 3 4) first.world
    (tryMatch fill (.limit .bid 101 7 5) (b, [])).world = second.world ∧
      (tryMatch fill (.limit .bid 101 7 5) (b, [])).consumed.toNat =
        first.consumed.toNat + second.consumed.toNat :=
  split_aggressor ((reachable_empty.afterAdd _).afterAdd _).attainable
    (some fun id calls => calls ++ [id]) [] ⟨rfl, rfl⟩ ⟨rfl, rfl⟩ rfl

/-! ## Cancelling and submitting -/

/-- Cancelling an order the aggressor does not trade with does not change what it takes. -/
theorem swept_without (h : Sound [] b) {o : Order} {id : UInt32}
    (hx : ∀ y ∈ b.getContainer o.side.opp, y.id = id →
      Order.tradeable o.side o.price y = false) :
    (b.without [id]).swept o =
      ⟨(b.swept o).filled, (b.swept o).rest.filter fun y => !([id].contains y.id),
        (b.swept o).left⟩ := by
  unfold swept
  rw [getContainer_without]
  refine sweep_filter (h.front o.side o.price) (fun y hy ht => ?_) fun _ _ => rfl
  have hne : y.id ≠ id := by
    intro he
    rw [hx y hy he] at ht
    exact absurd ht (by simp)
  simpa using hne

theorem afterMatch_without (h : Sound [] b) {o : Order} {id : UInt32}
    (hx : ∀ y ∈ b.getContainer o.side.opp, y.id = id →
      Order.tradeable o.side o.price y = false) :
    (b.without [id]).afterMatch o = (b.afterMatch o).without [id] := by
  have hsw := swept_without h hx
  have hids : (b.without [id]).filledIds o = b.filledIds o := by
    unfold filledIds
    rw [hsw]
  refine ext_containers (fun s => ?_) (Finmap.ext_lookup fun k => ?_)
  · rw [getContainer_without]
    rcases o.side.eq_or_eq_opp s with rfl | rfl
    · rw [afterMatch_own, afterMatch_own, getContainer_without]
    · rw [afterMatch_opp, afterMatch_opp, hsw]
  · have hl : ((b.without [id]).afterMatch o).orderIdsToSide =
        eraseAll (eraseAll b.orderIdsToSide [id]) (b.filledIds o) := hids ▸ rfl
    have hr : ((b.afterMatch o).without [id]).orderIdsToSide =
        eraseAll (eraseAll b.orderIdsToSide (b.filledIds o)) [id] := rfl
    rw [hl, hr]
    simp only [lookup_eraseAll]
    split <;> split <;> rfl

/-- An order the aggressor does not trade with is still at rest after the match. -/
theorem mem_afterMatch_of_mem {o x : Order} {t : Side} (hx : x ∈ b.getContainer t)
    (hxo : t = o.side ∨ Order.tradeable o.side o.price x = false) :
    x ∈ (b.afterMatch o).getContainer t := by
  rcases o.side.eq_or_eq_opp t with rfl | rfl
  · rwa [afterMatch_own]
  · rw [afterMatch_opp]
    exact sweep_mem_rest hx (hxo.resolve_left o.side.opp_ne)

/-- An order comes to rest at the same place, whether another one is taken out before or after. -/
theorem put_without (hs : (b.getContainer o.side).Pairwise (Order.Ranks o.side)) {id : UInt32}
    (hne : o.id ≠ id) : (b.put o).without [id] = (b.without [id]).put o := by
  refine ext_containers (fun s => ?_) (Finmap.ext_lookup fun k => ?_)
  · rw [getContainer_without]
    rcases o.side.eq_or_eq_opp s with rfl | rfl
    · rw [put_own, put_own, getContainer_without, filter_orderedInsert (by simpa using hne) hs]
    · rw [put_opp, put_opp, getContainer_without]
  · have hl : ((b.put o).without [id]).orderIdsToSide =
        eraseAll (b.orderIdsToSide.insert o.id o.side) [id] := rfl
    have hr : ((b.without [id]).put o).orderIdsToSide =
        (eraseAll b.orderIdsToSide [id]).insert o.id o.side := rfl
    rw [hl, hr, lookup_eraseAll]
    by_cases hk : k = o.id
    · subst hk
      rw [Finmap.lookup_insert, Finmap.lookup_insert, if_neg (by simpa using hne)]
    · rw [Finmap.lookup_insert_of_ne _ hk, Finmap.lookup_insert_of_ne _ hk, lookup_eraseAll]

/-- Nor does it change what is left of the aggressor, or where that rests. -/
theorem rested_without (h : Sound [] b) {o : Order} {id : UInt32}
    (hx : ∀ y ∈ b.getContainer o.side.opp, y.id = id → Order.tradeable o.side o.price y = false)
    (hne : o.id ≠ id) : (b.without [id]).rested o = (b.rested o).without [id] := by
  have hrem : (b.without [id]).remainder o = b.remainder o := by
    unfold remainder
    rw [swept_without h hx]
  have hsort := (h.afterMatch o).sorted o.side
  rw [rested_eq, rested_eq, hrem, afterMatch_without h hx]
  exact (put_without (o := b.remainder o) hsort hne).symm

/-- An order that is still at rest after the match is so when the remainder rests too. -/
theorem remove_rested (h : Sound [] b) {o x : Order} {t : Side} (hid : b.has o.id = false)
    (hx : x ∈ (b.afterMatch o).getContainer t) :
    (b.rested o).remove x.id = (true, (b.rested o).without [x.id]) := by
  have hfree : (b.afterMatch o).has o.id = false := by
    rw [afterMatch_has h, hid]
    rfl
  have hput : Indexed ((b.afterMatch o).put (b.remainder o)) :=
    (h.afterMatch o).toIndexed.put (o := b.remainder o) hfree
  rw [rested_eq]
  exact remove_of_mem hput (mem_put.mpr (Or.inr hx))

/-- **Cancelling commutes with an independent submission.** The resting order `x` is on the side of
`o`, or does not trade with it: the two calls return the same, notify the same and leave the same
book, whichever comes first. -/
theorem cancel_commutes {b : OptionOrderBook SIZE} (ha : Attainable b)
    (heard : Option (UInt32 → σ → σ)) (s : σ) {o x : Order} {t : Side} (hx : x ∈ b.getContainer t)
    (hxo : t = o.side ∨ Order.tradeable o.side o.price x = false) (hv : o.isValid = true)
    (hid : b.has o.id = false) (hs : (b.getContainer o.side).length < SIZE) :
    let fill := observe (told heard)
    let added := add fill o (b, s)
    let removed := b.remove x.id
    let added' := add fill o (removed.2, s)
    added.1 = added'.1 ∧ added.2.1.remove x.id = (removed.1, added'.2.1) ∧
      added.2.2 = added'.2.2 := by
  intro fill added removed added'
  have h := ha.sound
  have hremoved : removed = (true, b.without [x.id]) := remove_of_mem h.toIndexed hx
  have hw : Sound [] (b.without [x.id]) := h.without fun _ hk => absurd hk List.not_mem_nil
  have hne : o.id ≠ x.id := (h.id_ne hid hx).symm
  -- an opposite order of this id is `x` itself
  have hopp : ∀ y ∈ b.getContainer o.side.opp, y.id = x.id →
      Order.tradeable o.side o.price y = false := by
    intro y hy he
    obtain rfl : t = o.side.opp := h.side_unique hx hy he.symm
    rcases hxo with hside | ht
    · exact absurd hside o.side.opp_ne
    · rwa [List.inj_on_of_nodup_map (h.ids _) hy hx he]
  have hids : (b.without [x.id]).filledIds o = b.filledIds o := by
    unfold filledIds
    rw [swept_without h hopp]
  have hid' : (b.without [x.id]).has o.id = false := by
    rw [has_without, hid]
    rfl
  have hs' : ((b.without [x.id]).getContainer o.side).length < SIZE := by
    rw [getContainer_without]
    exact (List.length_filter_le _ _).trans_lt hs
  have hadded : added = (decide (0 < (b.swept o).left),
      if 0 < (b.swept o).left then b.rested o else b.afterMatch o,
      hears heard (b.filledIds o) s) := by
    rw [← notified_told heard _ (b.scanned o)]
    exact add_room h _ s hv hid hs
  have hadded' : added' = (decide (0 < (b.swept o).left),
      if 0 < (b.swept o).left then (b.rested o).without [x.id] else (b.afterMatch o).without [x.id],
      hears heard (b.filledIds o) s) := by
    have heq := add_room hw (told heard) s hv hid' hs'
    rw [notified_told, hids, swept_without h hopp, rested_without h hopp hne,
      afterMatch_without h hopp] at heq
    rw [← heq]
    simp only [added', hremoved, fill]
  have hmem : x ∈ (b.afterMatch o).getContainer t := mem_afterMatch_of_mem hx hxo
  rw [hadded, hadded', hremoved]
  refine ⟨rfl, ?_, rfl⟩
  simp only
  split
  · exact remove_rested h hid hmem
  · exact remove_of_mem (h.afterMatch o).toIndexed hmem

/-- The bid the insertion of a new bid stops at is cancelled, while the new one takes an ask. -/
theorem cancel_commutes_bid :
    let b := ((empty : OptionOrderBook 10).afterAdd (.limit .bid 100 2 1)).afterAdd
      (.limit .ask 101 3 2)
    let fill := observe (told (some fun id calls => calls ++ [id]))
    let o := Order.limit .bid 101 5 3
    let added := add fill o (b, ([] : List UInt32))
    let removed := b.remove 1
    let added' := add fill o (removed.2, [])
    added.1 = added'.1 ∧ added.2.1.remove 1 = (removed.1, added'.2.1) ∧ added.2.2 = added'.2.2 :=
  cancel_commutes ((reachable_empty.afterAdd _).afterAdd _).attainable
    (some fun id calls => calls ++ [id]) [] (o := .limit .bid 101 5 3)
    (x := .limit .bid 100 2 1) (t := .bid) (by decide) (Or.inl rfl) (by decide) (by decide)
    (by decide)

/-! ## Cancelling the remainder -/

/-- An aggressor nothing trades with leaves the book alone, and makes no call. -/
theorem tryMatch_none (fill : Option (FillFn SIZE σ)) {o : Order} {s : σ}
    (hn : ∀ x ∈ b.getContainer o.side.opp, Order.tradeable o.side o.price x = false) :
    (tryMatch fill o (b, s)).world = (b, s) := by
  unfold tryMatch
  simp only [Order.oppSide_eq, scan_none hn, removeFilled]
  cases o.side <;> rfl

/-- Taking an order out of the book it has just come to rest on. -/
theorem remove_put {o : Order} (h : Indexed b) (hid : b.has o.id = false) :
    (b.put o).remove o.id = (true, b) := by
  have hmem : o ∈ (b.put o).getContainer o.side := mem_put.mpr (Or.inl ⟨rfl, rfl⟩)
  rw [remove_of_mem (h.put hid) hmem, Prod.mk.injEq]
  have hstay : ∀ s, (b.getContainer s).filter (fun y => !([o.id].contains y.id)) =
      b.getContainer s := by
    intro s
    rw [List.filter_eq_self]
    intro y hy
    simpa using h.id_ne hid hy
  refine ⟨rfl, ext_containers (fun s => ?_) ?_⟩
  · rw [getContainer_without]
    rcases o.side.eq_or_eq_opp s with rfl | rfl
    · rw [put_own, filter_orderedInsert_neg (by simp), hstay]
    · rw [put_opp, hstay]
  · exact erase_insert_of_notMem (has_eq_false_iff.mp hid)

/-- **Cancelling the remainder restores the book.** When `add` returns `true`, a `remove` of the
order returns `true` and leaves the book `try_match` alone leaves, whatever the callback does with
the book meanwhile. When nothing trades, that is the book as it was. -/
theorem cancel_restores {b : OptionOrderBook SIZE} (ha : Attainable b)
    {fill : Option (FillFn SIZE σ)} (hfill : ∀ fillFn ∈ fill, ∀ id w, Effect w.1 (fillFn id w).1)
    {o : Order} (s : σ) (hadd : (add fill o (b, s)).1 = true) :
    (add fill o (b, s)).2.1.remove o.id = (true, (tryMatch fill o (b, s)).world.1) ∧
      ((∀ x ∈ b.getContainer o.side.opp, Order.tradeable o.side o.price x = false) →
        (add fill o (b, s)).2.1.remove o.id = (true, b)) := by
  have hm : Attainable (tryMatch fill o (b, s)).world.1 := ha.tryMatch hfill o s
  have hrestored : (add fill o (b, s)).2.1.remove o.id =
      (true, (tryMatch fill o (b, s)).world.1) := by
    rcases add_world fill o (b, s) hm.sound.size with ⟨hf, -⟩ | ⟨-, rest, -, hid, hfree, -, he⟩
    · rw [hadd] at hf
      exact absurd hf (by simp)
    · rw [he, ← hid]
      exact remove_put hm.sound.toIndexed hfree
  refine ⟨hrestored, fun hnone => ?_⟩
  rw [hrestored, tryMatch_none fill hnone]

/-- A bid that takes one ask, rests and is cancelled, while the callback cancels the other ask. -/
theorem cancel_restores_bid :
    let b := ((empty : OptionOrderBook 10).afterAdd (.limit .ask 100 2 1)).afterAdd
      (.limit .ask 102 3 2)
    let fill : Option (FillFn 10 Unit) := some fun _ w => ((w.1.remove 2).2, w.2)
    let o := Order.limit .bid 101 5 3
    (add fill o (b, ())).1 = true ∧
      (add fill o (b, ())).2.1.remove 3 = (true, (tryMatch fill o (b, ())).world.1) := by
  intro b fill o
  have hadd : (add fill o (b, ())).1 = true := by decide
  have hb : Attainable b := ((reachable_empty.afterAdd _).afterAdd _).attainable
  have hcode : ∀ fillFn ∈ fill, ∀ id w, Effect w.1 (fillFn id w).1 := by
    intro fillFn hf id w
    have hf' : (fun _ w => ((w.1.remove 2).2, w.2) : FillFn 10 Unit) = fillFn :=
      Option.some.inj hf
    rw [← hf']
    exact (Effect.refl w.1).remove 2
  exact ⟨hadd, (cancel_restores hb hcode () hadd).1⟩

end OptionOrderBook

end Mms
