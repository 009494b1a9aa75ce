import Mms.Exchange.Reentry

/-!
# What a callback sees

`try_match` collects the ids it consumes and then, one by one, removes an order and calls
`m_fill_fn`. `visible` is what the calls of a match see: `try_match` itself, run with a callback
that also writes down the book it is called with (`tryMatch_logged`: this changes nothing else).

* `callbacks_consistent_iff`: the calls see consistent books iff the aggressor does not take two
  resting orders whole.
* `filled_order_trades_again`: a callback that submits an order trades with one already consumed.
-/

namespace Mms

open Lib

namespace OptionOrderBook

variable {SIZE : ℕ} {σ : Type}

/-! ## The books a callback is called with -/

/-- `fillFn`, which also writes down the id and the book of each call, oldest call first. -/
def logged (fillFn : FillFn SIZE σ) : FillFn SIZE (σ × List (UInt32 × OptionOrderBook SIZE)) :=
  fun id w =>
    let (b, s) := fillFn id (w.1, w.2.1)
    (b, s, w.2.2 ++ [(id, w.1)])

/-- What `m_fill_fn` is called with while `o` is matched, and the book visible to each call. -/
def visible (fillFn : FillFn SIZE σ) (o : Order) (w : OptionOrderBook SIZE × σ) :
    List (UInt32 × OptionOrderBook SIZE) :=
  (tryMatch (some (logged fillFn)) o (w.1, w.2, [])).world.2.2

theorem removeFilled_logged (fillFn : FillFn SIZE σ) (ids : List UInt32) (b : OptionOrderBook SIZE)
    (s : σ) (log : List (UInt32 × OptionOrderBook SIZE)) :
    let w := removeFilled (some (logged fillFn)) ids (b, s, log)
    (w.1, w.2.1) = removeFilled (some fillFn) ids (b, s) := by
  induction ids generalizing b s log with
  | nil => rfl
  | cons id ids ih => exact ih _ _ _

/-- **Writing down changes nothing**: the match leaves the same aggressor, book and state. -/
theorem tryMatch_logged (fillFn : FillFn SIZE σ) (o : Order) (b : OptionOrderBook SIZE) (s : σ) :
    let m := tryMatch (some (logged fillFn)) o (b, s, [])
    let m' := tryMatch (some fillFn) o (b, s)
    m.consumed = m'.consumed ∧ m.aggressor = m'.aggressor ∧
      (m.world.1, m.world.2.1) = m'.world :=
  ⟨rfl, rfl, removeFilled_logged fillFn _ _ s []⟩

/-- The log only grows. -/
theorem log_grows (fillFn : FillFn SIZE σ) (ids : List UInt32) (b : OptionOrderBook SIZE) (s : σ)
    (log : List (UInt32 × OptionOrderBook SIZE)) :
    log <+: (removeFilled (some (logged fillFn)) ids (b, s, log)).2.2 := by
  induction ids generalizing b s log with
  | nil => exact List.prefix_rfl
  | cons id ids ih => exact (List.prefix_append log [(id, (b.remove id).2)]).trans (ih _ _ _)

/-- The first call sees the book without the first id only. -/
theorem first_call (fillFn : FillFn SIZE σ) (id : UInt32) (ids : List UInt32)
    (b : OptionOrderBook SIZE) (s : σ) :
    (id, (b.remove id).2) ∈ (removeFilled (some (logged fillFn)) (id :: ids) (b, s, [])).2.2 :=
  (log_grows fillFn ids _ _ [(id, (b.remove id).2)]).mem List.mem_cons_self

/-! ## Consistency -/

/-- The ids of the resting orders `o` consumes: `ids_to_remove`. -/
def consumedIds (b : OptionOrderBook SIZE) (o : Order) : List UInt32 :=
  (scan o (b.getContainer o.oppSide)).idsToRemove

/-- The book `v`, visible while `o` is matched against `b`, is as between operations, and no order
of it has been consumed. -/
structure Consistent (b : OptionOrderBook SIZE) (o : Order) (v : OptionOrderBook SIZE) : Prop where
  sound : Sound [] v
  /-- Nor are its prices crossed, unless they were before. -/
  inv : Inv b → Inv v
  gone : ∀ id ∈ b.consumedIds o, v.has id = false ∧ ∀ s, ∀ x ∈ v.getContainer s, x.id ≠ id

/-- The aggressor takes two resting orders whole: the first two of the opposite container are at a
tradeable price, and it has the units of both. -/
def TakesTwo (b : OptionOrderBook SIZE) (o : Order) : Prop :=
  ∃ x y rest, b.getContainer o.oppSide = x :: y :: rest ∧
    Order.tradeable o.side o.price x = true ∧ Order.tradeable o.side o.price y = true ∧
    x.qty.toNat + y.qty.toNat ≤ o.qty.toNat

theorem consumedIds_eq {b : OptionOrderBook SIZE} (h : Sound [] b) (o : Order) :
    b.consumedIds o = b.filledIds o := by
  unfold consumedIds
  rw [Order.oppSide_eq]
  exact (scan_eq (a := o) (h.front o.side o.price) h.qty_pos (h.ids _)).1

theorem takesTwo_iff {b : OptionOrderBook SIZE} (h : Sound [] b) (o : Order) :
    b.TakesTwo o ↔ 2 ≤ (b.consumedIds o).length := by
  rw [consumedIds_eq h, filledIds, List.length_map, swept, sweep_two h.qty_pos]
  unfold TakesTwo
  rw [Order.oppSide_eq]
  exact Iff.rfl

/-- What the calls see, by the ids consumed. -/
theorem visible_eq (fillFn : FillFn SIZE σ) (o : Order) (b : OptionOrderBook SIZE) (s : σ) :
    visible fillFn o (b, s) =
      (removeFilled (some (logged fillFn)) (b.consumedIds o) (b.scanned o, s, [])).2.2 := by
  unfold visible tryMatch consumedIds scanned
  simp only [Order.oppSide_eq]

/-- **When a callback sees a consistent book**: on an attainable book, whatever the callback does,
every call it gets while `o` is matched sees a book that satisfies the invariant and holds no
order `o` has consumed, iff `o` does not take two resting orders whole. -/
theorem callbacks_consistent_iff {b : OptionOrderBook SIZE} (ha : Attainable b)
    (fillFn : FillFn SIZE σ) (o : Order) (s : σ) :
    (∀ v ∈ visible fillFn o (b, s), Consistent b o v.2) ↔ ¬ b.TakesTwo o := by
  have h := ha.sound
  have hidx := scanned_indexed h.toIndexed o
  have hids := consumedIds_eq h o
  rw [takesTwo_iff h, visible_eq]
  cases hc : b.consumedIds o with
  | nil => exact ⟨fun _ => by simp, fun _ v hv => absurd hv List.not_mem_nil⟩
  | cons id rest =>
    have hfirst : ((b.scanned o).remove id).2 = (b.scanned o).without [id] := by
      rw [remove_eq hidx]
    cases rest with
    | nil =>
      refine ⟨fun _ => by simp, fun _ v hv => ?_⟩
      -- the only call comes when the match is over
      have hv' : v.2 = b.afterMatch o := by
        rw [← scanned_without h, ← hids, hc, ← hfirst, List.mem_singleton.mp hv]
      have hsound := h.afterMatch o
      rw [hv']
      refine ⟨hsound, fun hinv => afterMatch_inv hinv o, fun id' hid' => ?_⟩
      have hgone : (b.afterMatch o).has id' = false := by
        rw [← scanned_without h, has_without, ← hids]
        simp [hid']
      exact ⟨hgone, fun s x hx => hsound.id_ne hgone hx⟩
    | cons id2 rest =>
      refine ⟨fun hall => ?_, fun hnot => absurd hnot (by simp)⟩
      -- the first call sees the second order
      have hmem : id2 ∈ b.consumedIds o := by
        rw [hc]
        exact List.mem_cons_of_mem _ List.mem_cons_self
      have hgone := ((hall _ (first_call fillFn id (id2 :: rest) (b.scanned o) s)).gone id2 hmem).1
      have hne : id2 ≠ id := by
        have hnodup := h.ids o.side.opp
        rw [← swept_ids, ← hids, hc] at hnodup
        have hcons := (List.nodup_cons.mp (List.nodup_append.mp hnodup).1).1
        exact fun he => hcons (he ▸ List.mem_cons_self)
      have hhas : (b.scanned o).has id2 = true := by
        rw [scanned_has, h.has_iff]
        have hopp : id2 ∈ (b.getContainer o.side.opp).map Order.id := by
          rw [← swept_ids, ← hids]
          exact List.mem_append_left _ hmem
        obtain ⟨x, hx, he⟩ := List.mem_map.mp hopp
        exact ⟨_, x, hx, he⟩
      rw [hfirst, has_without, hhas] at hgone
      simp [hne] at hgone

/-- A bid that takes one ask whole and a part of the next. -/
theorem callbacks_consistent_iff_one :
    let b := ((empty : OptionOrderBook 10).afterAdd (.limit .ask 100 2 1)).afterAdd
      (.limit .ask 101 3 2)
    let o := Order.limit .bid 101 4 3
    let fillFn : FillFn 10 (List UInt32) := fun id w => ((w.1.remove 2).2, w.2 ++ [id])
    (visible fillFn o (b, [])).map Prod.fst = [1] ∧
      ∀ v ∈ visible fillFn o (b, []), Consistent b o v.2 := by
  intro b o fillFn
  have ha : Attainable b := ((reachable_empty.afterAdd _).afterAdd _).attainable
  refine ⟨by decide, (callbacks_consistent_iff ha fillFn o []).mpr ?_⟩
  rintro ⟨x, y, rest, he, -, -, hle⟩
  have hb : b.getContainer o.oppSide = [.limit .ask 100 2 1, .limit .ask 101 3 2] := by decide
  rw [hb] at he
  injection he with hx htail
  injection htail with hy _
  subst hx hy
  exact absurd hle (by decide)

/-- **A filled order trades again.** A bid of 6 takes two asks; when the callback hears of the
first, it submits a bid of 3, and that takes the second ask once more. -/
theorem filled_order_trades_again :
    let b := ((empty : OptionOrderBook 10).afterAdd (.limit .ask 100 2 1)).afterAdd
      (.limit .ask 101 3 2)
    let o := Order.limit .bid 101 6 3
    let again := Order.limit .bid 101 3 4
    let fillFn : FillFn 10 (List UInt32) := fun id w =>
      if id = 1 then (add (observe (some recorder)) again (w.1, w.2 ++ [id])).2
      else (w.1, w.2 ++ [id])
    let v := ((b.scanned o).remove 1).2
    Attainable b ∧ (∀ id w, Effect w.1 (fillFn id w).1) ∧
      (tryMatch (some fillFn) o (b, [])).consumed = 5 ∧ b.consumedIds o = [1, 2] ∧
      (1, v) ∈ visible fillFn o (b, []) ∧ v.asks = [.limit .ask 101 3 2] ∧
      (tryMatch (observe (some recorder)) again (v, [])).consumed = 3 ∧
      (tryMatch (some fillFn) o (b, [])).world.2 = [1, 2, 2] ∧
      ¬ ∀ v ∈ visible fillFn o (b, []), Consistent b o v.2 := by
  intro b o again fillFn v
  have hids : b.consumedIds o = [1, 2] := by decide
  have hmem : (1, v) ∈ visible fillFn o (b, []) := by
    rw [visible_eq, hids]
    exact first_call fillFn 1 [2] (b.scanned o) []
  have hcode : ∀ id w, Effect w.1 (fillFn id w).1 := by
    intro id w
    by_cases hid : id = 1
    · have hadd : (fillFn id w).1 =
          (add (observe (some recorder)) again (w.1, w.2 ++ [id])).2.1 := by
        simp only [fillFn, if_pos hid]
      rw [hadd]
      exact (Effect.refl w.1).add (effect_observe _) again _
    · have hstay : (fillFn id w).1 = w.1 := by simp only [fillFn, if_neg hid]
      rw [hstay]
      exact .refl w.1
  refine ⟨((reachable_empty.afterAdd _).afterAdd _).attainable, hcode, by decide, hids, hmem,
    by decide, by decide, by decide, fun hall => ?_⟩
  have hgone : v.has 2 = false := ((hall _ hmem).gone 2 (hids ▸ by decide)).1
  exact absurd hgone (by decide)

end OptionOrderBook

end Mms
