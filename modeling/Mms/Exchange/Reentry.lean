import Mms.Exchange.Calls

/-!
# Callbacks that call back in

`m_fill_fn` may submit and cancel orders on the book it is called for, in the middle of a match.
`Effect b b'` says that code which holds the book, be it a user or a callback, can make `b'` of `b`.

* `Effect.sound`: such code keeps a book `Sound`, whatever is pending in the matches around it.
* `Attainable`: the books such code can make of the empty one. They are sound; their prices may
  cross, since a callback can let an order rest in the way of the aggressor being matched.
-/

namespace Mms

open Lib

namespace OptionOrderBook

variable {SIZE : ℕ} {σ : Type} {b b' : OptionOrderBook SIZE} {pending : List UInt32}
  {fill : Option (FillFn SIZE σ)}

/-- Code that holds the book can make `b'` of `b`: it calls `remove`, `try_match` and `add` in turn,
with callbacks that are such code themselves. -/
inductive Effect : OptionOrderBook SIZE → OptionOrderBook SIZE → Prop
  | refl (b : OptionOrderBook SIZE) : Effect b b
  | remove {b b' : OptionOrderBook SIZE} (h : Effect b b') (id : UInt32) :
      Effect b (b'.remove id).2
  | tryMatch {b b' : OptionOrderBook SIZE} {σ : Type} {fill : Option (FillFn SIZE σ)}
      (h : Effect b b') (hfill : ∀ fillFn ∈ fill, ∀ id w, Effect w.1 (fillFn id w).1) (o : Order)
      (s : σ) : Effect b (tryMatch fill o (b', s)).world.1
  | add {b b' : OptionOrderBook SIZE} {σ : Type} {fill : Option (FillFn SIZE σ)}
      (h : Effect b b') (hfill : ∀ fillFn ∈ fill, ∀ id w, Effect w.1 (fillFn id w).1) (o : Order)
      (s : σ) : Effect b (add fill o (b', s)).2.1

/-- A book that code can make of the empty one. -/
def Attainable (b : OptionOrderBook SIZE) : Prop := Effect empty b

/-- The callback keeps a book sound, whatever is pending. -/
def KeepsSound (fill : Option (FillFn SIZE σ)) : Prop :=
  ∀ fillFn ∈ fill, ∀ pending id w, Sound pending w.1 → Sound pending (fillFn id w).1

/-! ## One call -/

theorem Sound.remove {pending' : List UInt32} (h : Sound pending b) (id : UInt32)
    (hp : ∀ k ∈ pending, k = id ∨ k ∈ pending') : Sound pending' (b.remove id).2 := by
  rw [remove_eq h.toIndexed]
  exact h.without fun k hk => (hp k hk).imp_left List.mem_singleton.mpr

/-- The removal of the collected ids settles them, whatever the callback does in between. -/
theorem Sound.removeFilled (hfill : KeepsSound fill) {ids : List UInt32}
    (h : Sound (ids ++ pending) b) (s : σ) :
    Sound pending (OptionOrderBook.removeFilled fill ids (b, s)).1 := by
  induction ids generalizing b s with
  | nil => exact h
  | cons id ids ih =>
    have hrest : Sound (ids ++ pending) (b.remove id).2 :=
      h.remove id fun k hk => List.mem_cons.mp hk
    cases fill with
    | none => exact ih hrest s
    | some fillFn => exact ih (hfill fillFn rfl _ id ((b.remove id).2, s) hrest) _

theorem Sound.tryMatch (hfill : KeepsSound fill) (h : Sound pending b) (o : Order) (s : σ) :
    Sound pending (OptionOrderBook.tryMatch fill o (b, s)).world.1 := by
  unfold OptionOrderBook.tryMatch
  simp only [Order.oppSide_eq]
  exact (h.scanned o).removeFilled hfill s

/-- What `add` does after its match: it returns `false` and the book is as before or as the match
left it, or it returns `true` and the rest of the order is on it. -/
theorem add_world (fill : Option (FillFn SIZE σ)) (o : Order) (w : OptionOrderBook SIZE × σ)
    (hsize : ∀ s, ((tryMatch fill o w).world.1.getContainer s).length ≤ SIZE) :
    ((add fill o w).1 = false ∧
      ((add fill o w).2.1 = w.1 ∨ (add fill o w).2.1 = (tryMatch fill o w).world.1)) ∨
    ((add fill o w).1 = true ∧ ∃ rest : Order, rest.isValid = true ∧ rest.id = o.id ∧
      (tryMatch fill o w).world.1.has rest.id = false ∧
      ((tryMatch fill o w).world.1.getContainer rest.side).length < SIZE ∧
      (add fill o w).2.1 = (tryMatch fill o w).world.1.put rest) := by
  have hleft : ∃ n, (tryMatch fill o w).aggressor = { o with qty := n } := scan_left o _
  have hconsumed : (tryMatch fill o w).consumed = o.qty - (tryMatch fill o w).aggressor.qty := rfl
  unfold add
  generalize tryMatch fill o w = m at hsize hleft hconsumed ⊢
  obtain ⟨consumed, aggressor, b, s⟩ := m
  obtain ⟨n, rfl⟩ : ∃ n, aggressor = { o with qty := n } := hleft
  obtain rfl : consumed = o.qty - n := hconsumed
  have hlen : (b.getContainer o.side).length ≤ SIZE := hsize o.side
  cases hv : o.isValid with
  | false => exact Or.inl ⟨rfl, Or.inl rfl⟩
  | true =>
    simp only [tryEmplace, Bool.not_true, Bool.false_eq_true, if_false]
    split
    · exact Or.inl ⟨rfl, Or.inr rfl⟩
    · rename_i hfull
      by_cases hm : o.id ∈ b.orderIdsToSide
      · rw [if_pos hm]
        exact Or.inl ⟨rfl, Or.inr rfl⟩
      · rw [if_neg hm]
        simp only [Bool.not_true, Bool.false_eq_true, if_false, getContainer_index, beq_iff_eq]
        have hnone := Finmap.lookup_eq_none.mpr hm
        by_cases hs : (b.getContainer o.side).length = SIZE
        · rw [if_pos hs, erase_insert_of_notMem hnone]
          exact Or.inl ⟨rfl, Or.inr rfl⟩
        · rw [if_neg hs]
          -- some units are left, or the order would count as fully consumed
          have hpos : 0 < n.toNat := by
            refine Nat.pos_of_ne_zero fun h0 => hfull ?_
            have hn : n = 0 := UInt32.toNat_inj.mp h0
            rw [hn, UInt32.sub_zero]
            exact beq_self_eq_true _
          refine Or.inr ⟨rfl, { o with qty := n },
            Order.isValid_iff.mpr ⟨(Order.isValid_iff.mp hv).1, hpos⟩, rfl,
            has_eq_false_iff.mpr hnone, Nat.lt_of_le_of_ne hlen hs, ?_⟩
          have hfind : ∀ x : Order, sortFn { o with qty := n } ({ o with qty := n } : Order).isBid
              x.price = decide (Order.Ranks o.side { o with qty := n } x) :=
            sortFn_eq { o with qty := n }
          simp only [hfind, insertIdx_findIdx, put]
          cases o.side <;> rfl

theorem Sound.add (hfill : KeepsSound fill) (h : Sound pending b) (o : Order) (s : σ) :
    Sound pending (OptionOrderBook.add fill o (b, s)).2.1 := by
  have hm := h.tryMatch hfill o s
  rcases add_world fill o (b, s) hm.size with
    ⟨-, he | he⟩ | ⟨-, rest, hv, -, hid, hlt, he⟩
  · exact he ▸ h
  · exact he ▸ hm
  · exact he ▸ hm.put hid hv hlt

/-! ## Any code -/

/-- **Code that holds the book keeps it sound**, also from inside a match. -/
theorem Effect.sound (he : Effect b b') (h : Sound pending b) : Sound pending b' := by
  induction he generalizing pending with
  | refl b => exact h
  | remove _ id ih => exact (ih h).remove id fun k hk => Or.inr hk
  | tryMatch _ _ o s ih ihfill =>
    exact (ih h).tryMatch (fun fillFn hf _ id w hw => ihfill fillFn hf id w hw) o s
  | add _ _ o s ih ihfill =>
    exact (ih h).add (fun fillFn hf _ id w hw => ihfill fillFn hf id w hw) o s

/-- **Every attainable book is sound.** -/
theorem Attainable.sound (ha : Attainable b) : Sound [] b := Effect.sound ha inv_empty.sound

/-- A callback that rests an ask while a bid is matched, below the price the bid then rests at. -/
example :
    let b := (empty : OptionOrderBook 10).afterAdd (.limit .ask 100 2 1)
    let fillFn : FillFn 10 Unit := fun _ w => (w.1.afterAdd (.limit .ask 100 1 2), w.2)
    let b' := (add (some fillFn) (.limit .bid 101 5 3) (b, ())).2.1
    b'.bids = [.limit .bid 101 3 3] ∧ b'.asks = [.limit .ask 100 1 2] := by decide

/-- A callback that does not touch the book is such code. -/
theorem effect_observe (fill : Option (Observer SIZE σ)) :
    ∀ fillFn ∈ observe fill, ∀ id w, Effect w.1 (fillFn id w).1 := by
  intro fillFn hf id w
  obtain ⟨g, -, rfl⟩ := Option.map_eq_some_iff.mp hf
  exact .refl w.1

theorem Reachable.attainable (hr : Reachable b) : Attainable b := by
  refine LTS.Reachable.invariant (I := Attainable) (fun b h0 => ?_) (fun b e b' ha hs => ?_) hr
  · have h0' : b = empty := h0
    rw [h0']
    exact .refl empty
  · obtain ⟨σ, fill, s, s', hs⟩ := hs
    cases e with
    | add o r =>
      have hb : (OptionOrderBook.add (observe fill) o (b, s)).2.1 = b' :=
        congrArg (fun w => w.2.1) hs
      exact hb ▸ ha.add (effect_observe fill) o s
    | remove id r =>
      have hb : (b.remove id).2 = b' := congrArg Prod.snd hs.1
      exact hb ▸ ha.remove id
    | tryMatch o n =>
      have hb : (OptionOrderBook.tryMatch (observe fill) o (b, s)).world.1 = b' :=
        congrArg Prod.fst hs.2
      exact hb ▸ ha.tryMatch (effect_observe fill) o s

end OptionOrderBook

end Mms
