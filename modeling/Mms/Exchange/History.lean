import Mms.Exchange.Calls

/-!
# Laws about the history of a book

Two laws that relate what the book holds to the calls that were made on it.

* **Lifecycle** (`accepted_eq_filled_add_cancelled`): for every id, the orders accepted under it are
  those filled, those cancelled by the caller, and the one that rests, if any.
* **Time priority.** The class documentation promises a price-time book. `add` inserts a new order
  in front of the first one it ranks with, so in front of every older order of its price. Orders of
  one price stand oldest first as long as no order comes to rest at a price already taken on its
  side (`NoPriceTie`), and the first one that does breaks the order (`time_priority`).
-/

namespace Mms

open Lib

namespace OptionOrderBook

variable {SIZE : ℕ} {σ : Type}

/-! ## Lifecycle -/

/-- An `add` of `id` that returned `true`. -/
def accepted (id : UInt32) : Event → Bool
  | .add o inserted => inserted && o.id == id
  | _ => false

/-- A `remove` of `id` that returned `true`. -/
def cancelled (id : UInt32) : Event → Bool
  | .remove i found => found && i == id
  | _ => false

/-- The orders at rest under `id`: one or none. -/
def resting (b : OptionOrderBook SIZE) (id : UInt32) : ℕ := (b.has id).toNat

/-- What matching takes from an id is one fill or nothing. -/
theorem resting_afterMatch {b : OptionOrderBook SIZE} (h : Inv b) (o : Order) (id : UInt32) :
    b.resting id = (b.filledIds o).count id + (b.afterMatch o).resting id := by
  have hnd : (b.filledIds o).Nodup := by
    have hall := h.ids o.side.opp
    rw [← swept_ids] at hall
    exact (List.nodup_append.mp hall).1
  unfold resting
  rw [← scanned_without h.sound, has_without, scanned_has]
  by_cases hid : id ∈ b.filledIds o
  · have hopp : id ∈ (b.getContainer o.side.opp).map Order.id := by
      rw [← swept_ids]
      exact List.mem_append_left _ hid
    obtain ⟨x, hx, rfl⟩ := List.mem_map.mp hopp
    rw [List.count_eq_one_of_mem hnd hid, h.has_of_mem hx]
    simp [hid]
  · rw [List.count_eq_zero_of_not_mem hid]
    simp [hid]

/-- The balance of one id: accepted = filled + cancelled + resting. -/
def Balanced (id : UInt32) (h : List Event) (w : OptionOrderBook SIZE × List UInt32) : Prop :=
  h.countP (accepted id) = w.2.count id + h.countP (cancelled id) + w.1.resting id

/-- Every call keeps the balance. -/
theorem Happens.balanced {id : UInt32} {h : List Event} {w w' : OptionOrderBook SIZE × List UInt32}
    {e : Event} (hi : Inv w.1) (hb : Balanced id h w) (hs : Happens (some recorder) w e w') :
    Balanced id (e :: h) w' := by
  obtain ⟨b', calls'⟩ := w'
  unfold Balanced at hb ⊢
  cases e with
  | add o r =>
    obtain ⟨ids, ho, he⟩ := Happens.add hi hs
    rw [notified_recorder] at he
    simp only at ho he
    have hm := resting_afterMatch hi o id
    cases ho with
    | invalid hv =>
      simp only [he, List.countP_cons, accepted, cancelled, List.append_nil, Bool.false_and]
      exact hb
    | filled hv hl =>
      simp only [he, List.countP_cons, accepted, cancelled, List.count_append, Bool.false_and,
        Bool.false_eq_true, if_false]
      omega
    | rejected hv hl hr =>
      simp only [he, List.countP_cons, accepted, cancelled, List.count_append, Bool.false_and,
        Bool.false_eq_true, if_false]
      omega
    | rested hv hl hid hsz =>
      simp only [he, List.countP_cons, accepted, cancelled, List.count_append, Bool.true_and,
        Bool.false_eq_true, if_false]
      -- the id of `o` starts to rest, the others rest as after the match
      have hrest : (w.1.rested o).resting id =
          (w.1.afterMatch o).resting id + if o.id == id then 1 else 0 := by
        by_cases hk : id = o.id
        · subst hk
          have hnew : (w.1.rested o).has o.id = true := by
            rw [OptionOrderBook.has_iff, rested_index]
            exact ⟨o.side, Finmap.lookup_insert _⟩
          rw [resting, resting, hnew, hid]
          simp
        · have hsame : (w.1.rested o).has id = (w.1.afterMatch o).has id := by
            rw [Bool.eq_iff_iff, OptionOrderBook.has_iff, OptionOrderBook.has_iff, rested_index,
              Finmap.lookup_insert_of_ne _ hk]
          rw [resting, resting, hsame, beq_false_of_ne (Ne.symm hk)]
          simp
      omega
  | remove i r =>
    obtain ⟨hr, hw, hc⟩ := Happens.remove hi hs
    simp only at hw hc
    simp only [List.countP_cons, accepted, cancelled, hc, hw, hr, resting, has_without] at hb ⊢
    by_cases hk : id = i
    · subst hk
      cases hhas : w.1.has id <;> simp [hhas] at hb ⊢ <;> omega
    · simp only [beq_false_of_ne (Ne.symm hk), Bool.and_false, Bool.false_eq_true, if_false]
      have hno : [i].contains id = false := by simpa using hk
      rw [hno, Bool.not_false, Bool.and_true]
      omega
  | tryMatch o n =>
    obtain ⟨-, hw, hc⟩ := Happens.tryMatch hi hs
    rw [notified_recorder] at hc
    simp only at hw hc
    have hm := resting_afterMatch hi o id
    simp only [List.countP_cons, accepted, cancelled, hc, hw, List.count_append,
      Bool.false_eq_true, if_false]
    omega

/-- **Exactly-once lifecycle.** In every run, for every id: the `add` calls that returned `true` are
as many as the calls of `m_fill_fn`, the `remove` calls that returned `true`, and the order that
rests, together. -/
theorem accepted_eq_filled_add_cancelled {h : List Event}
    {w : OptionOrderBook SIZE × List UInt32} (hr : (calls (some recorder) []).Run h w)
    (id : UInt32) : h.countP (accepted id) =
      w.2.count id + h.countP (cancelled id) + if w.1.has id = true then 1 else 0 := by
  have hb : Balanced id h w := by
    refine LTS.Run.invariant (I := Balanced id) (fun w h0 => ?_) (fun h w e w' hr hb hs => ?_) hr
    · have h0' : w = (empty, []) := h0
      rw [h0']
      unfold Balanced resting
      rw [has_eq_false_iff.mpr (Finmap.lookup_empty id)]
      rfl
    · exact Happens.balanced (calls_inv hr) hb hs
  rw [hb]
  unfold resting
  cases w.1.has id <;> rfl

/-- An ask that rests and is filled by a bid. -/
theorem accepted_eq_filled_add_cancelled_two :
    let ask := Order.limit .ask 100 2 1
    let bid := Order.limit .bid 100 2 2
    let w : OptionOrderBook 2 × List UInt32 :=
      (add (observe (some recorder)) bid (add (observe (some recorder)) ask (empty, [])).2).2
    [Event.add bid false, .add ask true].countP (accepted 1) = w.2.count 1 +
      [Event.add bid false, .add ask true].countP (cancelled 1) +
        if w.1.has 1 = true then 1 else 0 :=
  accepted_eq_filled_add_cancelled
    (calls_add (calls_add (.start rfl) (.limit .ask 100 2 1) (by decide)) (.limit .bid 100 2 2)
      (by decide)) 1

/-! ## Time priority -/

/-- When the last order of `id` was accepted: the number of calls up to that one, `0` for never. -/
def acceptedAt (id : UInt32) : List Event → ℕ
  | [] => 0
  | e :: h => if accepted id e = true then h.length + 1 else acceptedAt id h

/-- **Orders of one price stand oldest first.** -/
def InTimeOrder (h : List Event) (b : OptionOrderBook SIZE) : Prop :=
  ∀ s, (b.getContainer s).Pairwise fun x y =>
    x.price = y.price → acceptedAt x.id h < acceptedAt y.id h

/-- No aggressor takes from an order while an older one of its price keeps a unit. -/
def NoOvertaking (h : List Event) (b : OptionOrderBook SIZE) : Prop :=
  ∀ o s, ∀ x ∈ b.getContainer s, ∀ y ∈ b.getContainer s, x.price = y.price →
    acceptedAt x.id h < acceptedAt y.id h → y ∉ (b.afterAdd o).getContainer s →
      ∀ z ∈ (b.afterAdd o).getContainer s, z.id ≠ x.id

/-- The condition on a call: an `add` of an order that may rest finds its price untaken on its
side. -/
def NoPriceTie (b : OptionOrderBook SIZE) : Event → Prop
  | .add o _ => o.isValid = true → b.has o.id = false → (b.getContainer o.side).length < SIZE →
      ∀ x ∈ b.getContainer o.side, x.price ≠ o.price
  | _ => True

theorem acceptedAt_le (id : UInt32) (h : List Event) : acceptedAt id h ≤ h.length := by
  induction h with
  | nil => exact Nat.le_refl 0
  | cons e h ih =>
    unfold acceptedAt
    split
    · exact Nat.le_refl _
    · exact ih.trans (Nat.le_succ _)

/-- At a price its own side already holds, an order trades with nothing. -/
theorem untradeable_of_tie {b : OptionOrderBook SIZE} (h : Inv b) {o x : Order}
    (hx : x ∈ b.getContainer o.side) (hp : x.price = o.price) :
    ∀ y ∈ b.getContainer o.side.opp, Order.tradeable o.side o.price y = false := by
  intro y hy
  rw [← hp]
  exact h.uncrossed o.side x hx y hy

/-- The age order survives a call that accepts nothing and only takes orders out. -/
theorem InTimeOrder.shrink {h : List Event} {b b' : OptionOrderBook SIZE} {e : Event}
    (ht : InTimeOrder h b) (he : ∀ s, ∀ x ∈ b'.getContainer s, accepted x.id e = false)
    (hs : ∀ s, ((b'.getContainer s).map fun x => (x.id, x.price)).Sublist
      ((b.getContainer s).map fun x => (x.id, x.price))) : InTimeOrder (e :: h) b' := by
  intro s
  have hold : ((b.getContainer s).map fun x => (x.id, x.price)).Pairwise fun p q =>
      p.2 = q.2 → acceptedAt p.1 h < acceptedAt q.1 h := List.pairwise_map.mpr (ht s)
  have hnew := List.pairwise_map.mp (hold.sublist (hs s))
  refine hnew.imp_of_mem fun {x y} hx hy hxy hp => ?_
  unfold acceptedAt
  rw [he s x hx, he s y hy]
  exact hxy hp

/-- **A call that meets the condition keeps the age order.** -/
theorem Happens.inTimeOrder {fill : Option (Observer SIZE σ)} {h : List Event}
    {w w' : OptionOrderBook SIZE × σ} {e : Event} (hi : Inv w.1) (ht : InTimeOrder h w.1)
    (hc : NoPriceTie w.1 e) (hs : Happens fill w e w') : InTimeOrder (e :: h) w'.1 := by
  cases e with
  | add o r =>
    obtain ⟨b', s'⟩ := w'
    obtain ⟨ids, ho, -⟩ := Happens.add hi hs
    simp only at ho ⊢
    cases ho with
    | invalid hv => exact ht.shrink (fun _ _ _ => rfl) fun _ => List.Sublist.refl _
    | filled hv hl => exact ht.shrink (fun _ _ _ => rfl) (afterMatch_sublist (fun _ _ => rfl) w.1 o)
    | rejected hv hl hr =>
      exact ht.shrink (fun _ _ _ => rfl) (afterMatch_sublist (fun _ _ => rfl) w.1 o)
    | rested hv hl hid hsz =>
      -- the new id is nowhere in the book, so only the new order gets a new age
      have hne : ∀ s, ∀ x ∈ (w.1.afterMatch o).getContainer s, x.id ≠ o.id :=
        fun s x hx => (afterMatch_inv hi o).id_ne hid hx
      have hold : InTimeOrder (.add o true :: h) (w.1.afterMatch o) :=
        ht.shrink (fun s x hx => by simpa [accepted] using Ne.symm (hne s x hx))
          (afterMatch_sublist (fun _ _ => rfl) w.1 o)
      have htie : ∀ x ∈ w.1.getContainer o.side, x.price ≠ o.price := by
        intro x hx hp
        have hn := untradeable_of_tie hi hx hp
        rw [afterMatch_none hn] at hid
        exact hc hv hid hsz x hx hp
      intro s
      rcases o.side.eq_or_eq_opp s with rfl | rfl
      · rw [rested_own]
        have hown := hold o.side
        rw [afterMatch_own] at hown
        refine pairwise_orderedInsert hown fun x hx => ⟨fun hp => ?_, fun hp => ?_⟩
        · exact absurd hp (htie x hx)
        · exact absurd hp.symm (htie x hx)
      · rw [rested_opp, ← afterMatch_opp]
        exact hold _
  | remove id r =>
    rw [(Happens.remove hi hs).2.1]
    refine ht.shrink (fun _ _ _ => rfl) fun s => ?_
    rw [getContainer_without]
    exact List.filter_sublist.map _
  | tryMatch o n =>
    rw [(Happens.tryMatch hi hs).2.1]
    exact ht.shrink (fun _ _ _ => rfl) (afterMatch_sublist (fun _ _ => rfl) w.1 o)

/-- **In a book in age order nobody is overtaken**: an order older than a touched one of its price
is consumed. -/
theorem InTimeOrder.noOvertaking {h : List Event} {b : OptionOrderBook SIZE} (hi : Inv b)
    (ht : InTimeOrder h b) : NoOvertaking h b := by
  intro o s x hx y hy hp hage hyn z hz he
  obtain ⟨r, b', ids, ho, heq⟩ := add_outcome hi.sound (none : Option (Observer SIZE Unit)) o ()
  have hb' : b.afterAdd o = b' := congrArg (fun r => r.2.1) heq
  rw [hb'] at hyn hz
  have hown : ∀ y ∈ b.getContainer o.side, y ∈ b'.getContainer o.side := by
    intro y hy
    cases ho with
    | invalid hv => exact hy
    | filled hv hl => rwa [afterMatch_own]
    | rejected hv hl hr => rwa [afterMatch_own]
    | rested hv hl hid hsz =>
      rw [rested_own, List.mem_orderedInsert]
      exact Or.inr hy
  have hopp : b'.getContainer o.side.opp = (b.swept o).rest ∨ b' = b := by
    cases ho with
    | invalid hv => exact Or.inr rfl
    | filled hv hl => exact Or.inl (afterMatch_opp b o)
    | rejected hv hl hr => exact Or.inl (afterMatch_opp b o)
    | rested hv hl hid hsz => exact Or.inl (rested_opp b o)
  rcases o.side.eq_or_eq_opp s with rfl | rfl
  · exact hyn (hown y hy)
  · rcases hopp with hopp | rfl
    · rw [hopp] at hyn hz
      have hyx : y ≠ x := fun e => absurd hage (by rw [e]; exact Nat.lt_irrefl _)
      -- `x` is not behind `y` in the container, so it was taken whole
      have hfilled := sweep_mem_filled (ht o.side.opp) hy hyn hx (Ne.symm hyx)
        fun hlt => absurd (hlt hp.symm) (by omega)
      have hnd := hi.ids o.side.opp
      rw [← swept_ids] at hnd
      exact (List.nodup_append.mp hnd).2.2 x.id (List.mem_map_of_mem hfilled) z.id
        (List.mem_map_of_mem hz) he.symm
    · exact hyn hy

/-- A call that does not meet the condition puts the newest order in front of an older one. -/
theorem Happens.not_inTimeOrder {fill : Option (Observer SIZE σ)} {h : List Event}
    {w w' : OptionOrderBook SIZE × σ} {e : Event} (hi : Inv w.1) (hc : ¬ NoPriceTie w.1 e)
    (hs : Happens fill w e w') : ¬ InTimeOrder (e :: h) w'.1 := by
  cases e with
  | add o r =>
    unfold NoPriceTie at hc
    push Not at hc
    obtain ⟨hv, hid, hsz, x, hx, hp⟩ := hc
    have hn := untradeable_of_tie hi hx hp
    obtain ⟨b', s'⟩ := w'
    obtain ⟨ids, ho, -⟩ := Happens.add hi hs
    simp only at ho ⊢
    have hleft : (w.1.swept o).left = o.qty.toNat := by rw [swept_none hn]
    have hpos := (Order.isValid_iff.mp hv).2
    cases ho with
    | invalid hv' => rw [hv] at hv'; exact absurd hv' (by simp)
    | filled _ hl => omega
    | rejected _ _ hr =>
      rw [afterMatch_none hn, hid] at hr
      rcases hr with hr | hr
      · exact absurd hr (by simp)
      · omega
    | rested _ _ _ _ =>
      intro ht
      have hown := ht o.side
      rw [rested_own] at hown
      have hranks : Order.Ranks o.side (w.1.remainder o) x := by
        unfold Order.Ranks
        rw [hp]
        exact o.side.ahead_refl o.price
      have hage := orderedInsert_before hown hx hranks hp.symm
      have hnew : acceptedAt o.id (Event.add o true :: h) = h.length + 1 := by
        simp [acceptedAt, accepted]
      have hxid : x.id ≠ o.id := hi.id_ne hid hx
      have hold : acceptedAt x.id (Event.add o true :: h) = acceptedAt x.id h := by
        simp [acceptedAt, accepted, Ne.symm hxid]
      have hle := acceptedAt_le x.id h
      have hrem : (w.1.remainder o).id = o.id := rfl
      rw [hrem, hnew, hold] at hage
      omega
  | remove id r => exact absurd trivial hc
  | tryMatch o n => exact absurd trivial hc

/-- **Price-time priority, and exactly when.** In a run in which no order comes to rest at a price
its side already holds, orders of one price stand oldest first in every book reached, and no
aggressor takes from an order while an older one of its price keeps a unit. The first call that
brings such a tie breaks the order. -/
theorem time_priority {h : List Event} {b : OptionOrderBook SIZE}
    (hr : ((bookCalls SIZE).restrict NoPriceTie).Run h b) :
    InTimeOrder h b ∧ NoOvertaking h b ∧
      ∀ e b', (bookCalls SIZE).step b e b' → ¬ NoPriceTie b e → ¬ InTimeOrder (e :: h) b' := by
  have hi : Inv b := reachable_inv hr.of_restrict.reachable
  have ht : InTimeOrder h b := by
    refine LTS.Run.invariant (I := InTimeOrder) (fun b h0 s => ?_)
      (fun h b e b' hr ht hs => ?_) hr
    · have h0' : b = empty := h0
      rw [h0', getContainer_empty]
      exact List.Pairwise.nil
    · obtain ⟨hc, σ, fill, s, s', hs⟩ := hs
      have hb : Inv (b, s).1 := reachable_inv hr.of_restrict.reachable
      exact Happens.inTimeOrder hb ht hc hs
  refine ⟨ht, ht.noOvertaking hi, ?_⟩
  rintro e b' ⟨σ, fill, s, s', hs⟩ hc
  have hb : Inv (b, s).1 := hi
  exact Happens.not_inTimeOrder hb hc hs

/-- Two bids at different prices. -/
theorem time_priority_two_prices :
    let low := Order.limit .bid 99 3 1
    let high := Order.limit .bid 100 3 2
    let b : OptionOrderBook 2 := (empty.afterAdd low).afterAdd high
    let h := [Event.add high true, .add low true]
    InTimeOrder h b ∧ NoOvertaking h b ∧
      ∀ e b', (bookCalls 2).step b e b' → ¬ NoPriceTie b e → ¬ InTimeOrder (e :: h) b' := by
  intro low high b h
  have hlow : NoPriceTie (empty : OptionOrderBook 2) (.add low true) :=
    fun _ _ _ x hx => absurd hx List.not_mem_nil
  have hhigh : NoPriceTie ((empty : OptionOrderBook 2).afterAdd low) (.add high true) :=
    fun _ _ _ => by decide
  have hr : ((bookCalls 2).restrict NoPriceTie).Run [.add low true] (empty.afterAdd low) :=
    .next (.start rfl) ⟨hlow, afterAdd_step low (by decide)⟩
  exact time_priority (hr.next ⟨hhigh, afterAdd_step high (by decide)⟩)

/-- **The newest order of a price is hit first.** The bid `1` was accepted before the bid `2` of its
price, yet it stands behind it, and an ask of one unit takes from `2`. -/
theorem newest_bid_hit_first :
    let old := Order.limit .bid 100 3 1
    let new := Order.limit .bid 100 3 2
    let b : OptionOrderBook 2 := (empty.afterAdd old).afterAdd new
    let h := [Event.add new true, .add old true]
    (bookCalls 2).Run h b ∧ acceptedAt 1 h < acceptedAt 2 h ∧ b.bids = [new, old] ∧
      (b.afterAdd (.limit .ask 100 1 3)).bids = [.limit .bid 100 2 2, old] ∧
      ¬ InTimeOrder h b ∧ ¬ NoOvertaking h b := by
  intro old new b h
  have hbids : b.bids = [new, old] := by decide
  have hafter : (b.afterAdd (.limit .ask 100 1 3)).bids = [.limit .bid 100 2 2, old] := by decide
  have hr : (bookCalls 2).Run [.add old true] (empty.afterAdd old) :=
    .next (.start rfl) (afterAdd_step old (by decide))
  refine ⟨hr.next (afterAdd_step new (by decide)), by decide, hbids, hafter, fun ht => ?_,
    fun hno => ?_⟩
  · have hp := ht .bid
    rw [getContainer, hbids, List.pairwise_pair] at hp
    exact absurd (hp rfl) (by decide)
  · have hx := hno (.limit .ask 100 1 3) .bid old (by rw [getContainer, hbids]; simp) new
      (by rw [getContainer, hbids]; simp) rfl (by decide)
    rw [getContainer, hafter] at hx
    exact hx (by decide) old (by simp) rfl

end OptionOrderBook

end Mms
