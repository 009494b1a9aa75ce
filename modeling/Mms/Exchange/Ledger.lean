import Mms.Exchange.Calls

/-!
# The ledger of a book

Which units of which order went where. A book keeps no record of this; here every call writes
entries into a ledger beside the book: what was submitted, what the loop of `try_match` traded, what
was cancelled, and what was dropped when `add` turned an order away after matching it. A party is an
order as far as trading does not change it: its side, its id and its price.

* `quantity_ledger`: the ledger is bookkeeping, every run of a book has one. For every set of
  parties, what was submitted is what rests, what was traded, what was cancelled and what was
  dropped, together. With the parties of one side and price this is
  the depth of the book, with those of one id the quantity under that id.
* `never_overdrawn`: at every entry of the ledger, also in the middle of a call, no party has
  traded, cancelled or dropped more than it had submitted.
* `volume_balances`: every trade is one of a bid and an ask that accept its price, so both sides
  trade the same volume.
-/

namespace Mms

open Lib

/-- The fields of an order that stay as they are while it trades. -/
structure Party where
  side : Side
  id : UInt32
  price : Price32
deriving DecidableEq, Repr

/-- The party of an order. -/
def Order.party (o : Order) : Party := ⟨o.side, o.id, o.price⟩

theorem Order.reduce_party (o : Order) (n : ℕ) : (Lot.reduce o n).party = o.party := rfl

/-- A trade. -/
structure Trade where
  aggressor : Party
  passive : Party
  units : ℕ
deriving DecidableEq, Repr

/-- A trade of a bid and an ask, at a price that both accept. -/
structure Trade.Valid (t : Trade) : Prop where
  units : 0 < t.units
  sides : t.passive.side = t.aggressor.side.opp
  price : t.passive.side.ahead t.passive.price t.aggressor.price

/-- An entry of the ledger. -/
inductive Entry where
  | submitted (party : Party) (units : ℕ)
  | traded (trade : Trade)
  | cancelled (party : Party) (units : ℕ)
  | dropped (party : Party) (units : ℕ)
deriving DecidableEq, Repr

namespace Entry

variable (A : Party → Bool)

/-- The units the parties of `A` submit by an entry. -/
def submittedBy : Entry → ℕ
  | .submitted party units => if A party = true then units else 0
  | _ => 0

/-- The units they trade, on either side of the trade. -/
def tradedBy : Entry → ℕ
  | .traded t =>
    (if A t.aggressor = true then t.units else 0) + if A t.passive = true then t.units else 0
  | _ => 0

/-- The units they cancel. -/
def cancelledBy : Entry → ℕ
  | .cancelled party units => if A party = true then units else 0
  | _ => 0

/-- The units of theirs that are dropped. -/
def droppedBy : Entry → ℕ
  | .dropped party units => if A party = true then units else 0
  | _ => 0

/-- The units of theirs that an entry accounts for otherwise than by resting. -/
def spentBy (e : Entry) : ℕ := e.tradedBy A + e.cancelledBy A + e.droppedBy A

/-- The volume of an entry. -/
def volume : Entry → ℕ
  | .traded t => t.units
  | _ => 0

end Entry

/-- A number read off every entry, added up. -/
def sumOf (f : Entry → ℕ) (ledger : List Entry) : ℕ := (ledger.map f).sum

@[simp] theorem sumOf_nil (f : Entry → ℕ) : sumOf f [] = 0 := rfl

@[simp] theorem sumOf_cons (f : Entry → ℕ) (e : Entry) (ledger : List Entry) :
    sumOf f (e :: ledger) = f e + sumOf f ledger := by
  unfold sumOf
  rw [List.map_cons, List.sum_cons]

@[simp] theorem sumOf_append (f : Entry → ℕ) (ledger ledger' : List Entry) :
    sumOf f (ledger ++ ledger') = sumOf f ledger + sumOf f ledger' := by
  unfold sumOf
  rw [List.map_append, List.sum_append]

theorem sumOf_map {α : Type} (f : Entry → ℕ) (g : α → Entry) (l : List α) :
    sumOf f (l.map g) = (l.map fun a => f (g a)).sum := by
  unfold sumOf
  rw [List.map_map]
  rfl

/-- A sum of numbers read off an entry. -/
theorem sumOf_add (f g : Entry → ℕ) (ledger : List Entry) :
    sumOf (fun e => f e + g e) ledger = sumOf f ledger + sumOf g ledger :=
  List.sum_map_add

/-- What a kind of entry does not say adds up to nothing. -/
theorem sumOf_eq_zero {f : Entry → ℕ} {ledger : List Entry} (hf : ∀ e ∈ ledger, f e = 0) :
    sumOf f ledger = 0 := by
  refine List.sum_eq_zero fun n hn => ?_
  obtain ⟨e, he, rfl⟩ := List.mem_map.mp hn
  exact hf e he

theorem sumOf_spent (A : Party → Bool) (ledger : List Entry) :
    sumOf (Entry.spentBy A) ledger = sumOf (Entry.tradedBy A) ledger +
      sumOf (Entry.cancelledBy A) ledger + sumOf (Entry.droppedBy A) ledger := by
  have h1 := sumOf_add (Entry.tradedBy A) (Entry.cancelledBy A) ledger
  have h2 := sumOf_add (fun e => Entry.tradedBy A e + Entry.cancelledBy A e) (Entry.droppedBy A)
    ledger
  rw [← h1]
  exact h2

namespace OptionOrderBook

variable {SIZE : ℕ}

/-! ## The entries of a call -/

/-- The trades of the loop of `try_match`, one for each pass that moves units. -/
def trades : Order → List Order → List Trade
  | _, [] => []
  | aggressor, passive :: rest =>
    let tradeablePrice := !Price32.isMoreCons aggressor.price passive.price aggressor.isBid
    let consumedAggressor := decide (passive.qty > aggressor.qty)
    let consumedPassive := decide (passive.qty < aggressor.qty)
    if tradeablePrice then
      if consumedPassive then
        ⟨aggressor.party, passive.party, passive.qty.toNat⟩ ::
          trades { aggressor with qty := aggressor.qty - passive.qty } rest
      else if consumedAggressor then
        -- an aggressor without units ends the loop without a trade
        if aggressor.qty = 0 then [] else [⟨aggressor.party, passive.party, aggressor.qty.toNat⟩]
      else [⟨aggressor.party, passive.party, aggressor.qty.toNat⟩]
    else trades aggressor rest

/-- What matching `o` enters: the submission first, then the trades. -/
def matchEntries (b : OptionOrderBook SIZE) (o : Order) : List Entry :=
  .submitted o.party o.qty.toNat ::
    (trades o (b.getContainer o.oppSide)).map Entry.traded

/-- What is left of `o` after the match, when it does not come to rest. -/
def dropEntry (b : OptionOrderBook SIZE) (o : Order) : Entry :=
  .dropped o.party (scan o (b.getContainer o.oppSide)).aggressor.qty.toNat

/-- The entries of a call on `b`. -/
def entries (b : OptionOrderBook SIZE) : Event → List Entry
  | .add o inserted =>
    if !o.isValid then []
    else if inserted then b.matchEntries o
    else b.matchEntries o ++ [b.dropEntry o]
  | .remove id _ =>
    ((b.bids ++ b.asks).filter fun x => x.id == id).map fun x => .cancelled x.party x.qty.toNat
  | .tryMatch o _ => b.matchEntries o ++ [b.dropEntry o]

/-- The runs of a book with its ledger, oldest entry first. -/
def ledgered (SIZE : ℕ) : LTS (OptionOrderBook SIZE × List Entry) Event where
  init x := x = (empty, [])
  step x e x' := (bookCalls SIZE).step x.1 e x'.1 ∧ x'.2 = x.2 ++ entries x.1 e

/-- The units of the parties of `A` that rest. -/
def restingUnits (b : OptionOrderBook SIZE) (A : Party → Bool) : ℕ :=
  total (fun x : Order => A x.party) b.bids + total (fun x : Order => A x.party) b.asks

variable {b b' : OptionOrderBook SIZE} {A : Party → Bool} {h : List Event}
  {x : OptionOrderBook SIZE × List Entry}

theorem run_of_ledgered (hr : (ledgered SIZE).Run h x) : (bookCalls SIZE).Run h x.1 := by
  induction hr with
  | start h0 =>
    obtain rfl := h0
    exact .start rfl
  | next _ hs ih => exact ih.next hs.1

/-- The ledger is bookkeeping: every run has one. -/
theorem ledger_exists (hr : (bookCalls SIZE).Run h b) :
    ∃ ledger, (ledgered SIZE).Run h (b, ledger) := by
  induction hr with
  | start h0 =>
    obtain rfl := h0
    exact ⟨[], .start rfl⟩
  | next _ hs ih =>
    obtain ⟨ledger, hr⟩ := ih
    exact ⟨_, hr.next ⟨hs, rfl⟩⟩

/-! ## The trades of a match -/

theorem trades_skip {a p : Order} {ps : List Order}
    (ht : Order.tradeable a.side a.price p = false) : trades a (p :: ps) = trades a ps := by
  simp only [trades, Order.not_isMoreCons, ht, Bool.false_eq_true, if_false]

/-- `consumed_passive`. -/
theorem trades_passive {a p : Order} {ps : List Order}
    (ht : Order.tradeable a.side a.price p = true) (hlt : p.qty < a.qty) :
    trades a (p :: ps) = ⟨a.party, p.party, p.qty.toNat⟩ ::
      trades { a with qty := a.qty - p.qty } ps := by
  simp only [trades, Order.not_isMoreCons, ht, hlt, decide_true, if_true]

/-- `consumed_aggressor`, or both are consumed. -/
theorem trades_aggressor {a p : Order} {ps : List Order}
    (ht : Order.tradeable a.side a.price p = true) (hle : a.qty ≤ p.qty) (h0 : a.qty ≠ 0) :
    trades a (p :: ps) = [⟨a.party, p.party, a.qty.toNat⟩] := by
  have hge : ¬ p.qty < a.qty := UInt32.not_lt.mpr hle
  simp only [trades, Order.not_isMoreCons, ht, hge, h0, decide_false, if_true,
    Bool.false_eq_true, if_false, ite_self]

theorem trades_none {a : Order} : ∀ {c : List Order},
    (∀ p ∈ c, Order.tradeable a.side a.price p = false) → trades a c = []
  | [], _ => rfl
  | p :: ps, h => by
    rw [trades_skip (h p List.mem_cons_self)]
    exact trades_none fun x hx => h x (List.mem_cons_of_mem _ hx)

/-- **The trades of the loop are what the sweep takes.** -/
theorem trades_eq {a : Order} {c : List Order}
    (hf : Front (Order.tradeable a.side a.price) c) (hpos : ∀ p ∈ c, 0 < p.qty.toNat) :
    trades a c = (takes (Order.tradeable a.side a.price) a.qty.toNat c).map
      fun t => ⟨a.party, t.1.party, t.2⟩ := by
  induction c generalizing a with
  | nil => rfl
  | cons p ps ih =>
    cases ht : Order.tradeable a.side a.price p with
    | false =>
      have hall := hf.all_false ht
      rw [trades_none hall, takes_none hall]
      rfl
    | true =>
      have hp := hpos p List.mem_cons_self
      by_cases h : p.qty < a.qty
      · -- the loop goes on with the rest
        have hlt := UInt32.lt_iff_toNat_lt.mp h
        have hsub : (a.qty - p.qty).toNat = a.qty.toNat - p.qty.toNat :=
          UInt32.toNat_sub_of_le _ _ (UInt32.le_of_lt h)
        have hrest := ih (a := { a with qty := a.qty - p.qty }) hf.tail
          fun x hx => hpos x (List.mem_cons_of_mem _ hx)
        simp only [hsub] at hrest
        rw [trades_passive ht h, takes_take ht (by omega) (Nat.le_of_lt hlt), hrest]
        rfl
      · have hle := UInt32.not_lt.mp h
        have hle' := UInt32.le_iff_toNat_le.mp hle
        by_cases h0 : a.qty = 0
        · have hlt : ¬ p.qty < 0 := h0 ▸ h
          have hgt : p.qty > 0 := UInt32.lt_iff_toNat_lt.mpr hp
          have hz : a.qty.toNat = 0 := congrArg UInt32.toNat h0
          rw [hz, takes_zero]
          simp only [trades, Order.not_isMoreCons, ht, h0, hlt, hgt, decide_false, decide_true,
            if_true, Bool.false_eq_true, if_false, List.map_nil]
        · have hz : a.qty.toNat ≠ 0 := fun hz => h0 (UInt32.toNat_inj.mp hz)
          rw [trades_aggressor ht hle h0]
          by_cases heq : a.qty.toNat = p.qty.toNat
          · rw [takes_take ht hz (Nat.le_of_eq heq.symm), Order.qty_eq, heq, Nat.sub_self,
              takes_zero]
            rfl
          · rw [takes_reduce ht hz (by rw [Order.qty_eq]; omega)]
            rfl

/-- Its trades on a book. -/
theorem trades_swept (hi : Inv b) (o : Order) :
    trades o (b.getContainer o.oppSide) =
      (takes (Order.tradeable o.side o.price) o.qty.toNat (b.getContainer o.side.opp)).map
        fun t => ⟨o.party, t.1.party, t.2⟩ := by
  rw [Order.oppSide_eq]
  exact trades_eq (hi.front o.side o.price) fun _ hx => hi.qty_pos _ hx

/-- What the trades of a match are like. -/
theorem mem_trades (hi : Inv b) {o : Order} {t : Trade}
    (ht : t ∈ trades o (b.getContainer o.oppSide)) : t.Valid := by
  rw [trades_swept hi] at ht
  obtain ⟨⟨x, n⟩, hx, rfl⟩ := List.mem_map.mp ht
  obtain ⟨hmem, hok, hn⟩ := mem_takes (fun y hy => hi.qty_pos y hy) hx
  have hside : x.side = o.side.opp := hi.side _ x hmem
  refine ⟨hn, hside, ?_⟩
  show x.side.ahead x.price o.price
  rw [hside]
  exact Order.tradeable_iff.mp hok

/-- The units an aggressor trades, and those it does not. -/
theorem trades_units (hi : Inv b) (o : Order) :
    ((trades o (b.getContainer o.oppSide)).map Trade.units).sum + (b.swept o).left =
      o.qty.toNat := by
  rw [trades_swept hi, List.map_map]
  exact takes_sum _ _ _

theorem dropEntry_eq (hi : Inv b) (o : Order) :
    b.dropEntry o = .dropped o.party (b.swept o).left := by
  unfold dropEntry
  rw [Order.oppSide_eq, (scan_eq (hi.front o.side o.price) (fun _ hx => hi.qty_pos _ hx)
    (hi.ids _)).2.1]
  exact congrArg (Entry.dropped o.party) (b.remainder_qty o)

/-! ## What a call does to the units at rest -/

theorem restingUnits_eq (b : OptionOrderBook SIZE) (A : Party → Bool) (s : Side) :
    b.restingUnits A = total (fun x : Order => A x.party) (b.getContainer s) +
      total (fun x : Order => A x.party) (b.getContainer s.opp) := by
  cases s with
  | bid => rfl
  | ask => exact Nat.add_comm _ _

/-- Matching takes the units of the trades off the opposite side. -/
theorem restingUnits_afterMatch (hi : Inv b) (A : Party → Bool) (o : Order) :
    b.restingUnits A = (b.afterMatch o).restingUnits A +
      ((trades o (b.getContainer o.oppSide)).map fun t =>
        if A t.passive = true then t.units else 0).sum := by
  have hlost := takes_total (fun x : Order => A x.party)
    (fun x n => by rw [Order.reduce_party]) (Order.tradeable o.side o.price) o.qty.toNat
    (b.getContainer o.side.opp)
  rw [restingUnits_eq b A o.side, restingUnits_eq _ A o.side, afterMatch_own, afterMatch_opp,
    trades_swept hi, List.map_map, hlost]
  exact (Nat.add_assoc _ _ _).symm

theorem restingUnits_put (b : OptionOrderBook SIZE) (A : Party → Bool) (o : Order) :
    (b.put o).restingUnits A =
      b.restingUnits A + if A o.party = true then o.qty.toNat else 0 := by
  rw [restingUnits_eq _ A o.side, restingUnits_eq b A o.side, put_own, put_opp,
    total_perm (List.perm_orderedInsert _ _ _), total_cons, Order.qty_eq]
  omega

theorem restingUnits_rested (b : OptionOrderBook SIZE) (A : Party → Bool) (o : Order) :
    (b.rested o).restingUnits A = (b.afterMatch o).restingUnits A +
      if A o.party = true then (b.swept o).left else 0 := by
  rw [rested_eq, restingUnits_put, remainder_qty]
  rfl

/-- A cancel takes out what it enters. -/
theorem restingUnits_without (b : OptionOrderBook SIZE) (A : Party → Bool) (id : UInt32)
    (found : Bool) : b.restingUnits A = (b.without [id]).restingUnits A +
      sumOf (Entry.spentBy A) (b.entries (.remove id found)) := by
  have hentered : ∀ l : List Order, sumOf (Entry.spentBy A)
      (l.map fun x => Entry.cancelled x.party x.qty.toNat) =
        total (fun x : Order => A x.party) l := by
    intro l
    induction l with
    | nil => rfl
    | cons x l ih =>
      rw [List.map_cons, sumOf_cons, ih, total_cons]
      simp [Entry.spentBy, Entry.tradedBy, Entry.cancelledBy, Entry.droppedBy, Order.qty_eq]
  have hkept : ∀ s, (b.without [id]).getContainer s =
      (b.getContainer s).filter fun x => !(x.id == id) := by
    intro s
    rw [getContainer_without]
    refine List.filter_congr fun x _ => ?_
    rw [Bool.eq_iff_iff]
    simp
  have hbids := total_filter_add (fun x : Order => A x.party) (fun x => x.id == id) b.bids
  have hasks := total_filter_add (fun x : Order => A x.party) (fun x => x.id == id) b.asks
  rw [restingUnits_eq (b.without [id]) A .bid, hkept, hkept]
  unfold entries restingUnits
  rw [hentered, List.filter_append, total_append, hbids, hasks]
  simp only [getContainer, Side.opp]
  omega

/-! ## Conservation -/

/-- The units submitted in a match, and where they and those of the other side went. -/
theorem match_balance (hi : Inv b) (A : Party → Bool) (o : Order) :
    b.restingUnits A + sumOf (Entry.submittedBy A) (b.matchEntries o) =
      (b.afterMatch o).restingUnits A + sumOf (Entry.spentBy A) (b.matchEntries o) +
        if A o.party = true then (b.swept o).left else 0 := by
  have hunits := trades_units hi o
  have hsubmitted : sumOf (Entry.submittedBy A) (b.matchEntries o) =
      if A o.party = true then o.qty.toNat else 0 := by
    unfold matchEntries
    rw [sumOf_cons, sumOf_map, List.sum_eq_zero fun n hn => ?_]
    · rfl
    · obtain ⟨t, -, rfl⟩ := List.mem_map.mp hn
      rfl
  have hown : ((trades o (b.getContainer o.oppSide)).map fun t =>
      if A t.aggressor = true then t.units else 0).sum =
        if A o.party = true then
          ((trades o (b.getContainer o.oppSide)).map Trade.units).sum else 0 := by
    have hparty : ∀ t ∈ trades o (b.getContainer o.oppSide), t.aggressor = o.party := by
      intro t ht
      rw [trades_swept hi] at ht
      obtain ⟨y, -, rfl⟩ := List.mem_map.mp ht
      rfl
    rw [List.map_congr_left fun t ht => by rw [hparty t ht]]
    split
    · rfl
    · refine List.sum_eq_zero fun n hn => ?_
      obtain ⟨t, -, rfl⟩ := List.mem_map.mp hn
      rfl
  have hspent : sumOf (Entry.spentBy A) (b.matchEntries o) =
      ((trades o (b.getContainer o.oppSide)).map fun t =>
        if A t.aggressor = true then t.units else 0).sum +
      ((trades o (b.getContainer o.oppSide)).map fun t =>
        if A t.passive = true then t.units else 0).sum := by
    unfold matchEntries
    rw [sumOf_cons, sumOf_map, ← List.sum_map_add]
    exact Nat.zero_add _
  rw [restingUnits_afterMatch hi A o, hsubmitted, hspent, hown]
  split <;> omega

theorem submitted_drop (b : OptionOrderBook SIZE) (A : Party → Bool) (o : Order) :
    sumOf (Entry.submittedBy A) [b.dropEntry o] = 0 := rfl

theorem spent_drop (hi : Inv b) (A : Party → Bool) (o : Order) :
    sumOf (Entry.spentBy A) [b.dropEntry o] =
      if A o.party = true then (b.swept o).left else 0 := by
  rw [dropEntry_eq hi, sumOf_cons, sumOf_nil]
  exact (Nat.add_zero _).trans (Nat.zero_add _)

/-- A match after which `o` does not come to rest. -/
theorem drop_balance (hi : Inv b) (A : Party → Bool) (o : Order) :
    b.restingUnits A + sumOf (Entry.submittedBy A) (b.matchEntries o ++ [b.dropEntry o]) =
      (b.afterMatch o).restingUnits A +
        sumOf (Entry.spentBy A) (b.matchEntries o ++ [b.dropEntry o]) := by
  have hmatch := match_balance hi A o
  rw [sumOf_append, sumOf_append, submitted_drop, spent_drop hi]
  omega

/-- **One `add`.** -/
theorem AddOutcome.balance {o : Order} {r : Bool} {ids : List UInt32} (hi : Inv b)
    (A : Party → Bool) (ho : AddOutcome b o r b' ids) :
    b.restingUnits A + sumOf (Entry.submittedBy A) (b.entries (.add o r)) =
      b'.restingUnits A + sumOf (Entry.spentBy A) (b.entries (.add o r)) := by
  cases ho with
  | invalid hv => simp [entries, hv]
  | filled hv _ =>
    simp only [entries, hv, Bool.not_true, Bool.false_eq_true, if_false]
    exact drop_balance hi A o
  | rejected hv _ _ =>
    simp only [entries, hv, Bool.not_true, Bool.false_eq_true, if_false]
    exact drop_balance hi A o
  | rested hv _ _ _ =>
    have hmatch := match_balance hi A o
    simp only [entries, hv, Bool.not_true, Bool.false_eq_true, if_false, if_true,
      restingUnits_rested]
    omega

/-- **One call.** -/
theorem entries_balance (hi : Inv b) (A : Party → Bool) {e : Event}
    (hs : (bookCalls SIZE).step b e b') :
    b.restingUnits A + sumOf (Entry.submittedBy A) (b.entries e) =
      b'.restingUnits A + sumOf (Entry.spentBy A) (b.entries e) := by
  obtain ⟨σ, fill, s, s', hs⟩ := hs
  cases e with
  | add o r =>
    obtain ⟨ids, ho, -⟩ := Happens.add hi hs
    exact AddOutcome.balance hi A ho
  | remove id r =>
    have hw : b' = b.without [id] := (Happens.remove hi hs).2.1
    have hnone : sumOf (Entry.submittedBy A) (b.entries (.remove id r)) = 0 := by
      refine sumOf_eq_zero fun e he => ?_
      obtain ⟨x, -, rfl⟩ := List.mem_map.mp he
      rfl
    rw [hw, hnone, restingUnits_without b A id r]
    rfl
  | tryMatch o n =>
    have hw : b' = b.afterMatch o := (Happens.tryMatch hi hs).2.1
    rw [hw]
    exact drop_balance hi A o

/-- What was submitted rests or is spent. -/
theorem ledger_balance (hr : (ledgered SIZE).Run h x) (A : Party → Bool) :
    sumOf (Entry.submittedBy A) x.2 = x.1.restingUnits A + sumOf (Entry.spentBy A) x.2 := by
  refine LTS.Run.invariant (I := fun _ x => sumOf (Entry.submittedBy A) x.2 =
    x.1.restingUnits A + sumOf (Entry.spentBy A) x.2) (fun x h0 => ?_) ?_ hr
  · obtain rfl : x = (empty, []) := h0
    rfl
  · intro h x e x' hr hb hs
    have hcall := entries_balance (reachable_inv (run_of_ledgered hr).reachable) A hs.1
    rw [hs.2, sumOf_append, sumOf_append]
    omega

theorem ledger_account (hr : (ledgered SIZE).Run h x) (A : Party → Bool) :
    sumOf (Entry.submittedBy A) x.2 = x.1.restingUnits A + sumOf (Entry.tradedBy A) x.2 +
      sumOf (Entry.cancelledBy A) x.2 + sumOf (Entry.droppedBy A) x.2 := by
  rw [ledger_balance hr A, sumOf_spent]
  omega

/-- **The quantity ledger.** Every run of a book has a ledger. And for every set of parties, after
every run: what they submitted is what rests, what they traded, what was cancelled and what was
dropped, together. -/
theorem quantity_ledger (hr : (bookCalls SIZE).Run h b) :
    (∃ ledger, (ledgered SIZE).Run h (b, ledger)) ∧
      ∀ ledger, (ledgered SIZE).Run h (b, ledger) → ∀ A,
        sumOf (Entry.submittedBy A) ledger = b.restingUnits A + sumOf (Entry.tradedBy A) ledger +
          sumOf (Entry.cancelledBy A) ledger + sumOf (Entry.droppedBy A) ledger :=
  ⟨ledger_exists hr, fun _ hr A => ledger_account hr A⟩

/-- An ask of five units; a bid takes three of them and the rest is cancelled. -/
def booked : List Entry :=
  [.submitted ⟨.ask, 1, ⟨100⟩⟩ 5, .submitted ⟨.bid, 2, ⟨101⟩⟩ 3,
    .traded ⟨⟨.bid, 2, ⟨101⟩⟩, ⟨.ask, 1, ⟨100⟩⟩, 3⟩, .dropped ⟨.bid, 2, ⟨101⟩⟩ 0,
    .cancelled ⟨.ask, 1, ⟨100⟩⟩ 2]

/-- The book after the ask, and after the bid. -/
def asked : OptionOrderBook 2 := empty.afterAdd (.limit .ask 100 5 1)
def hit : OptionOrderBook 2 := asked.afterAdd (.limit .bid 101 3 2)

/-- The calls, the latest one first. -/
def bookedCalls : List Event :=
  [.remove 1 true, .add (.limit .bid 101 3 2) false, .add (.limit .ask 100 5 1) true]

theorem booked_run : (ledgered 2).Run bookedCalls ((hit.remove 1).2, booked) := by
  have h0 : (ledgered 2).Run [] (empty, []) := .start rfl
  have hask : (bookCalls 2).step empty (.add (.limit .ask 100 5 1) true) asked :=
    afterAdd_step _ (by decide +kernel)
  have hbid : (bookCalls 2).step asked (.add (.limit .bid 101 3 2) false) hit :=
    afterAdd_step _ (by decide +kernel)
  have hcancel : (bookCalls 2).step hit (.remove 1 true) (hit.remove 1).2 :=
    ⟨Unit, none, (), (), Prod.ext (by decide +kernel) rfl, rfl⟩
  have h1 : (ledgered 2).Run [.add (.limit .ask 100 5 1) true] (asked, booked.take 1) :=
    h0.next ⟨hask, by decide +kernel⟩
  have h2 : (ledgered 2).Run [.add (.limit .bid 101 3 2) false, .add (.limit .ask 100 5 1) true]
      (hit, booked.take 4) := h1.next ⟨hbid, by decide +kernel⟩
  exact h2.next ⟨hcancel, by decide +kernel⟩

/-- Of the five units of the ask three were traded and two cancelled. -/
theorem quantity_ledger_booked :
    sumOf (Entry.submittedBy fun party => party.id == 1) booked = 5 ∧
    sumOf (Entry.submittedBy fun party => party.id == 1) booked =
      (hit.remove 1).2.restingUnits (fun party => party.id == 1) +
        sumOf (Entry.tradedBy fun party => party.id == 1) booked +
        sumOf (Entry.cancelledBy fun party => party.id == 1) booked +
        sumOf (Entry.droppedBy fun party => party.id == 1) booked :=
  ⟨by decide, (quantity_ledger (run_of_ledgered booked_run)).2 _ booked_run _⟩

/-! ## The middle of a call -/

/-- An `add` enters what matching and dropping the order do, or less. -/
theorem entries_add (b : OptionOrderBook SIZE) (o : Order) (inserted : Bool) :
    b.entries (.add o inserted) <+: b.matchEntries o ++ [b.dropEntry o] := by
  cases hv : o.isValid with
  | false => simp [entries, hv]
  | true =>
    cases inserted with
    | true => simp [entries, hv]
    | false => simp [entries, hv]

/-- Only the first entry of a call can be a submission. -/
theorem entries_tail (b : OptionOrderBook SIZE) (A : Party → Bool) (e : Event) {y : Entry}
    (hy : y ∈ (b.entries e).tail) : y.submittedBy A = 0 := by
  have hmatch : ∀ o, ∀ y ∈ (b.matchEntries o ++ [b.dropEntry o]).tail, y.submittedBy A = 0 := by
    intro o y hy
    rcases List.mem_append.mp hy with hy | hy
    · obtain ⟨t, -, rfl⟩ := List.mem_map.mp hy
      rfl
    · obtain rfl := List.mem_singleton.mp hy
      rfl
  cases e with
  | add o inserted => exact hmatch o y ((b.entries_add o inserted).sublist.tail.subset hy)
  | remove id found =>
    obtain ⟨x, -, rfl⟩ := List.mem_map.mp (List.mem_of_mem_tail hy)
    rfl
  | tryMatch o n => exact hmatch o y hy

/-- A part of the entries of a call, up to some entry, submits what the whole call does. -/
theorem submitted_part {e : Event} {part rest : List Entry} (he : b.entries e = part ++ rest)
    (hne : part ≠ []) (A : Party → Bool) :
    sumOf (Entry.submittedBy A) part = sumOf (Entry.submittedBy A) (b.entries e) := by
  have hrest : sumOf (Entry.submittedBy A) rest = 0 := by
    refine sumOf_eq_zero fun y hy => b.entries_tail A e ?_
    rw [he, List.tail_append_of_ne_nil hne]
    exact List.mem_append_right _ hy
  rw [he, sumOf_append, hrest, Nat.add_zero]

/-- **No party is ever overdrawn.** However far one reads the ledger, also into a call: no set of
parties has traded, cancelled or dropped more than it had submitted. Orders of one side, id and
price are one party; so this is about a single order where no other one of the run is such. -/
theorem never_overdrawn (hr : (ledgered SIZE).Run h x) (A : Party → Bool) {part : List Entry}
    (hp : part <+: x.2) :
    sumOf (Entry.tradedBy A) part + sumOf (Entry.cancelledBy A) part +
      sumOf (Entry.droppedBy A) part ≤ sumOf (Entry.submittedBy A) part := by
  rw [← sumOf_spent]
  induction hr generalizing part with
  | start h0 =>
    obtain rfl := h0
    obtain rfl := List.prefix_nil.mp hp
    exact Nat.le_refl 0
  | @next h x x' e hr hs ih =>
    rw [hs.2] at hp
    have hx := List.prefix_append x.2 (x.1.entries e)
    rcases List.prefix_or_prefix_of_prefix hp hx with hp' | hp'
    · exact ih hp'
    · obtain ⟨part, rfl⟩ := hp'
      obtain ⟨rest, he⟩ := (List.prefix_append_right_inj x.2).mp hp
      have hbefore := ledger_balance hr A
      have hcall := entries_balance (reachable_inv (run_of_ledgered hr).reachable) A hs.1
      rw [sumOf_append, sumOf_append]
      rcases part.eq_nil_or_concat with rfl | ⟨init, last, hlast⟩
      · rw [sumOf_nil, sumOf_nil]
        omega
      · have hsubmitted := submitted_part he.symm (by simp [hlast]) A
        rw [← he, sumOf_append (Entry.spentBy A)] at hcall
        rw [← he] at hsubmitted
        omega

/-- After the trade the bid has traded all it submitted. -/
theorem never_overdrawn_booked :
    sumOf (Entry.submittedBy fun party => party.id == 2) (booked.take 3) = 3 ∧
    sumOf (Entry.tradedBy fun party => party.id == 2) (booked.take 3) +
      sumOf (Entry.cancelledBy fun party => party.id == 2) (booked.take 3) +
      sumOf (Entry.droppedBy fun party => party.id == 2) (booked.take 3) ≤
        sumOf (Entry.submittedBy fun party => party.id == 2) (booked.take 3) :=
  ⟨by decide, never_overdrawn booked_run _ (List.take_prefix 3 _)⟩

/-! ## Both sides -/

/-- The parties of a side. -/
def ofSide (s : Side) (party : Party) : Bool := party.side == s

/-- Every trade of a call is one of a bid and an ask. -/
theorem entries_valid (hi : Inv b) {e : Event} {t : Trade}
    (ht : .traded t ∈ b.entries e) : t.Valid := by
  have hmatch : ∀ o, .traded t ∈ b.matchEntries o ++ [b.dropEntry o] → t.Valid := by
    intro o ht
    rcases List.mem_append.mp ht with ht | ht
    · rcases List.mem_cons.mp ht with ht | ht
      · exact absurd ht (by simp)
      · obtain ⟨t', ht', he⟩ := List.mem_map.mp ht
        obtain rfl := Entry.traded.inj he
        exact mem_trades hi ht'
    · exact absurd (List.mem_singleton.mp ht) (by simp [dropEntry])
  cases e with
  | add o inserted => exact hmatch o ((b.entries_add o inserted).subset ht)
  | remove id found =>
    obtain ⟨x, -, he⟩ := List.mem_map.mp ht
    exact absurd he (by simp)
  | tryMatch o n => exact hmatch o ht

theorem ledger_valid (hr : (ledgered SIZE).Run h x) {t : Trade} (ht : .traded t ∈ x.2) :
    t.Valid := by
  induction hr with
  | start h0 =>
    obtain rfl := h0
    exact absurd ht List.not_mem_nil
  | next hr hs ih =>
    rw [hs.2] at ht
    rcases List.mem_append.mp ht with ht | ht
    · exact ih ht
    · exact entries_valid (reachable_inv (run_of_ledgered hr).reachable) ht

/-- A trade is one of each side. -/
theorem tradedBy_ofSide {t : Trade} (ht : t.Valid) (s : Side) :
    Entry.tradedBy (ofSide s) (.traded t) = t.units := by
  have hsides := ht.sides
  unfold Entry.tradedBy OptionOrderBook.ofSide
  cases s <;> cases ha : t.aggressor.side <;> simp [hsides, ha, Side.opp]

/-- **Both sides trade the same volume.** Every trade is one of a bid and an ask that accept its
price, of at least one unit; so what was submitted on a side is what rests on it, the volume of the
ledger, and what was cancelled and dropped on that side, with one volume for both. -/
theorem volume_balances (hr : (ledgered SIZE).Run h x) :
    (∀ t, .traded t ∈ x.2 → t.Valid) ∧
    ∀ s, sumOf (Entry.submittedBy (ofSide s)) x.2 =
      ((x.1.getContainer s).map Lot.qty).sum + sumOf Entry.volume x.2 +
        sumOf (Entry.cancelledBy (ofSide s)) x.2 + sumOf (Entry.droppedBy (ofSide s)) x.2 := by
  refine ⟨fun t ht => ledger_valid hr ht, fun s => ?_⟩
  have hvolume : sumOf (Entry.tradedBy (ofSide s)) x.2 = sumOf Entry.volume x.2 := by
    unfold sumOf
    refine congrArg List.sum (List.map_congr_left fun e he => ?_)
    cases e with
    | traded t => exact tradedBy_ofSide (ledger_valid hr he) s
    | _ => rfl
  have hi := reachable_inv (run_of_ledgered hr).reachable
  have hrest : x.1.restingUnits (ofSide s) = ((x.1.getContainer s).map Lot.qty).sum := by
    have hother : total (fun y : Order => ofSide s y.party) (x.1.getContainer s.opp) = 0 := by
      refine total_eq_zero fun y hy => ?_
      have hside : y.party.side = s.opp := hi.side _ y hy
      simp [ofSide, hside, s.opp_ne]
    have hown : (x.1.getContainer s).filter (fun y => ofSide s y.party) = x.1.getContainer s := by
      refine List.filter_eq_self.mpr fun y hy => ?_
      have hside : y.party.side = s := hi.side _ y hy
      simp [ofSide, hside]
    rw [restingUnits_eq _ _ s, hother, Nat.add_zero, total, hown]
  rw [ledger_account hr, hvolume, hrest]

/-- Three units were traded, on either side. -/
theorem volume_balances_booked : sumOf Entry.volume booked = 3 ∧
    ∀ s, sumOf (Entry.submittedBy (ofSide s)) booked =
      (((hit.remove 1).2.getContainer s).map Lot.qty).sum + sumOf Entry.volume booked +
        sumOf (Entry.cancelledBy (ofSide s)) booked + sumOf (Entry.droppedBy (ofSide s)) booked :=
  ⟨by decide, (volume_balances booked_run).2⟩

end OptionOrderBook

end Mms
