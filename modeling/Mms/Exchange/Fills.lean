import Mms.Exchange.Ledger

/-!
# Fill notices and the ledger

`m_fill_fn` is called with nothing but an id. The ledger says what the call means: a party is
settled when all it has submitted is traded, cancelled or dropped, and a trade that settles the
party at rest is what the callback hears of.

* `notices_settle`: a run has one ledger, and the calls of `m_fill_fn` are those that it tells one
  to expect (`settlements`), one for each trade that settles its passive party, in the order of the
  trades. So no order is reported before its last unit has traded, and none is forgotten that has
  traded its last unit.
-/

namespace Mms

open Lib

namespace OptionOrderBook

variable {SIZE : ℕ} {b : OptionOrderBook SIZE} {h : List Event}

/-- The party alone. -/
def only (party other : Party) : Bool := other == party

/-- The party has nothing outstanding: no unit of it rests or is still to be matched. -/
def Settled (ledger : List Entry) (party : Party) : Prop :=
  sumOf (Entry.submittedBy (only party)) ledger = sumOf (Entry.spentBy (only party)) ledger

instance (ledger : List Entry) (party : Party) : Decidable (Settled ledger party) :=
  inferInstanceAs (Decidable (_ = _))

/-- The ids a ledger that goes on from `done` tells one to expect from `m_fill_fn`. -/
def settlements (done : List Entry) : List Entry → List UInt32
  | [] => []
  | .traded t :: ledger =>
    if Settled (done ++ [.traded t]) t.passive then
      t.passive.id :: settlements (done ++ [.traded t]) ledger
    else settlements (done ++ [.traded t]) ledger
  | e :: ledger => settlements (done ++ [e]) ledger

theorem settlements_append (done ledger ledger' : List Entry) :
    settlements done (ledger ++ ledger') =
      settlements done ledger ++ settlements (done ++ ledger) ledger' := by
  induction ledger generalizing done with
  | nil => simp [settlements]
  | cons e ledger ih =>
    have happ : done ++ e :: ledger = (done ++ [e]) ++ ledger := by simp
    rw [happ, List.cons_append]
    cases e with
    | traded t =>
      simp only [settlements]
      split
      · rw [ih, List.cons_append]
      · exact ih _
    | _ => exact ih _

/-- Without trades nothing is settled. -/
theorem settlements_none {ledger : List Entry} (hn : ∀ t, .traded t ∉ ledger) (done : List Entry) :
    settlements done ledger = [] := by
  induction ledger generalizing done with
  | nil => rfl
  | cons e ledger ih =>
    have hn' : ∀ t, .traded t ∉ ledger := fun t ht => hn t (List.mem_cons_of_mem _ ht)
    cases e with
    | traded t => exact absurd List.mem_cons_self (hn t)
    | _ => exact ih hn' _

/-- What is outstanding of a resting order is its quantity. -/
def Outstanding (ledger : List Entry) (x : Order) : Prop :=
  sumOf (Entry.submittedBy (only x.party)) ledger =
    x.qty.toNat + sumOf (Entry.spentBy (only x.party)) ledger

/-- **What a match settles** is what the sweep takes whole, where the ledger so far has the
quantities of the orders right. -/
theorem settlements_takes {ok : Order → Bool} {aggressor : Party} {c : List Order}
    (hn : (c.map Order.id).Nodup) (ha : ∀ x ∈ c, x.party ≠ aggressor) (q : ℕ) {done : List Entry}
    (ho : ∀ x ∈ c, Outstanding done x) :
    settlements done ((takes ok q c).map fun t => .traded ⟨aggressor, t.1.party, t.2⟩) =
      (sweep ok q c).filled.map Order.id := by
  induction c generalizing q done with
  | nil => rfl
  | cons p ps ih =>
    have hself : ∀ n, sumOf (Entry.submittedBy (only p.party))
        (done ++ [.traded ⟨aggressor, p.party, n⟩]) =
          sumOf (Entry.submittedBy (only p.party)) done := by
      intro n
      simp [Entry.submittedBy]
    have hspent : ∀ n, sumOf (Entry.spentBy (only p.party))
        (done ++ [.traded ⟨aggressor, p.party, n⟩]) =
          sumOf (Entry.spentBy (only p.party)) done + n := by
      intro n
      simp [Entry.spentBy, Entry.tradedBy, Entry.cancelledBy, Entry.droppedBy, only,
        (ha p List.mem_cons_self).symm]
    have hp : Outstanding done p := ho p List.mem_cons_self
    unfold Outstanding at hp
    by_cases hstop : ok p = false ∨ q = 0
    · rw [takes_stop hstop, sweep_stop hstop]
      rfl
    · rw [not_or, Bool.not_eq_false] at hstop
      obtain ⟨hok, hq⟩ := hstop
      by_cases hle : Lot.qty p ≤ q
      · rw [takes_take hok hq hle, sweep_take hok hq hle, List.map_cons, List.map_cons]
        have hsettled : Settled (done ++ [.traded ⟨aggressor, p.party, Lot.qty p⟩]) p.party := by
          unfold Settled
          rw [hself, hspent, Order.qty_eq]
          omega
        rw [List.map_cons, List.nodup_cons] at hn
        simp only [settlements, if_pos hsettled]
        refine congrArg (p.id :: ·) (ih hn.2 (fun x hx => ha x (List.mem_cons_of_mem _ hx)) _ ?_)
        -- the others are as they were
        intro x hx
        have hne : p.party ≠ x.party := by
          intro he
          exact hn.1 (List.mem_map.mpr ⟨x, hx, (congrArg Party.id he).symm⟩)
        have hother := ho x (List.mem_cons_of_mem _ hx)
        unfold Outstanding at hother ⊢
        simpa [Entry.submittedBy, Entry.spentBy, Entry.tradedBy, Entry.cancelledBy,
          Entry.droppedBy, only, hne, (ha x (List.mem_cons_of_mem _ hx)).symm] using hother
      · rw [takes_reduce hok hq (by omega), sweep_reduce hok hq (by omega)]
        have hopen : ¬ Settled (done ++ [.traded ⟨aggressor, p.party, q⟩]) p.party := by
          unfold Settled
          rw [hself, hspent]
          rw [Order.qty_eq] at hle
          omega
        simp [settlements, hopen]

/-! ## One call -/

/-- A party at rest has the quantity of its order. -/
theorem restingUnits_only (hi : Inv b) {s : Side} {x : Order} (hx : x ∈ b.getContainer s) :
    b.restingUnits (only x.party) = x.qty.toNat := by
  have hown : ∀ c : List Order, (c.map Order.id).Nodup → x ∈ c →
      total (fun y : Order => only x.party y.party) c = x.qty.toNat := by
    intro c hn hx
    induction c with
    | nil => exact absurd hx List.not_mem_nil
    | cons p ps ih =>
      rw [List.map_cons, List.nodup_cons] at hn
      rw [total_cons]
      rcases List.mem_cons.mp hx with rfl | hx
      · have hrest : total (fun y : Order => only x.party y.party) ps = 0 := by
          refine total_eq_zero fun y hy => ?_
          have hne : y.party ≠ x.party := fun he =>
            hn.1 (List.mem_map.mpr ⟨y, hy, congrArg Party.id he⟩)
          simp [only, hne]
        rw [hrest]
        simp [only, Order.qty_eq]
      · have hne : p.party ≠ x.party := fun he =>
          hn.1 (List.mem_map.mpr ⟨x, hx, (congrArg Party.id he).symm⟩)
        rw [ih hn.2 hx]
        simp [only, hne]
  have hother : total (fun y : Order => only x.party y.party) (b.getContainer s.opp) = 0 := by
    refine total_eq_zero fun y hy => ?_
    have hne : y.party ≠ x.party := by
      intro he
      have hside : y.side = x.side := congrArg Party.side he
      rw [hi.side _ y hy, hi.side _ x hx] at hside
      exact s.opp_ne hside
    simp [only, hne]
  rw [restingUnits_eq b _ s, hother, hown _ (hi.ids s) hx, Nat.add_zero]

/-- In every run the ledger has the quantities of the resting orders right. -/
theorem ledger_outstanding {x : OptionOrderBook SIZE × List Entry}
    (hr : (ledgered SIZE).Run h x) {s : Side} {y : Order} (hy : y ∈ x.1.getContainer s) :
    Outstanding x.2 y := by
  have hbalance := ledger_balance hr (only y.party)
  rwa [restingUnits_only (reachable_inv (run_of_ledgered hr).reachable) hy] at hbalance

/-- A match settles the orders it fills. -/
theorem settlements_match (hi : Inv b) {ledger : List Entry}
    (ho : ∀ s, ∀ x ∈ b.getContainer s, Outstanding ledger x) (o : Order) :
    settlements ledger (b.matchEntries o) = b.filledIds o := by
  have hne : ∀ x ∈ b.getContainer o.side.opp, x.party ≠ o.party := by
    intro x hx he
    have hside : x.side = o.side := congrArg Party.side he
    rw [hi.side _ x hx] at hside
    exact o.side.opp_ne hside
  have hopp : ∀ x ∈ b.getContainer o.side.opp,
      Outstanding (ledger ++ [.submitted o.party o.qty.toNat]) x := by
    intro x hx
    have hout := ho _ x hx
    unfold Outstanding at hout ⊢
    simpa [Entry.submittedBy, Entry.spentBy, Entry.tradedBy, Entry.cancelledBy, Entry.droppedBy,
      only, (hne x hx).symm] using hout
  unfold matchEntries
  rw [trades_swept hi, List.map_map]
  exact settlements_takes (hi.ids _) hne _ hopp

/-- Nor does a drop. -/
theorem settlements_drop (hi : Inv b) {ledger : List Entry}
    (ho : ∀ s, ∀ x ∈ b.getContainer s, Outstanding ledger x) (o : Order) :
    settlements ledger (b.matchEntries o ++ [b.dropEntry o]) = b.filledIds o := by
  have hnone : ∀ done, settlements done [b.dropEntry o] = [] := fun done => rfl
  rw [settlements_append, settlements_match hi ho, hnone, List.append_nil]

/-- What `add` settles is what it notifies. -/
theorem AddOutcome.settlements {b' : OptionOrderBook SIZE} {o : Order} {r : Bool}
    {ids : List UInt32} (hi : Inv b) {ledger : List Entry}
    (ho : ∀ s, ∀ x ∈ b.getContainer s, Outstanding ledger x) (hadd : AddOutcome b o r b' ids) :
    settlements ledger (b.entries (.add o r)) = ids := by
  cases hadd with
  | invalid hv => simp [entries, hv, OptionOrderBook.settlements]
  | filled hv _ =>
    simp only [entries, hv, Bool.not_true, Bool.false_eq_true, if_false]
    exact settlements_drop hi ho o
  | rejected hv _ _ =>
    simp only [entries, hv, Bool.not_true, Bool.false_eq_true, if_false]
    exact settlements_drop hi ho o
  | rested hv _ _ _ =>
    simp only [entries, hv, Bool.not_true, Bool.false_eq_true, if_false, if_true]
    exact settlements_match hi ho o

/-- **One call**: the callback hears what the call settles. -/
theorem Happens.settlements {w w' : OptionOrderBook SIZE × List UInt32} {e : Event}
    (hi : Inv w.1) {ledger : List Entry}
    (ho : ∀ s, ∀ x ∈ w.1.getContainer s, Outstanding ledger x)
    (hs : Happens (some recorder) w e w') :
    w'.2 = w.2 ++ settlements ledger (w.1.entries e) := by
  cases e with
  | add o r =>
    obtain ⟨ids, hadd, hcalls⟩ := Happens.add hi hs
    rw [hcalls, notified_recorder, AddOutcome.settlements hi ho hadd]
  | remove id r =>
    have hnone : ∀ t, .traded t ∉ w.1.entries (.remove id r) := by
      intro t ht
      obtain ⟨x, -, he⟩ := List.mem_map.mp ht
      exact absurd he (by simp)
    rw [(Happens.remove hi hs).2.2, settlements_none hnone, List.append_nil]
  | tryMatch o n =>
    rw [(Happens.tryMatch hi hs).2.2, notified_recorder]
    exact congrArg (w.2 ++ ·) (settlements_drop hi ho o).symm

/-! ## Every run -/

/-- The callbacks registered do not matter to the book. -/
theorem step_unique {b' b'' : OptionOrderBook SIZE} {e : Event} (hi : Inv b)
    (hs : (bookCalls SIZE).step b e b') (hs' : (bookCalls SIZE).step b e b'') : b' = b'' := by
  obtain ⟨σ, fill, s, t, hs⟩ := hs
  obtain ⟨σ', fill', s', t', hs'⟩ := hs'
  cases e with
  | add o r =>
    obtain ⟨ids, ho, -⟩ := Happens.add hi hs
    obtain ⟨ids', ho', -⟩ := Happens.add hi hs'
    exact (AddOutcome.unique ho ho').2.1
  | remove id r => exact (Happens.remove hi hs).2.1.trans (Happens.remove hi hs').2.1.symm
  | tryMatch o n => exact (Happens.tryMatch hi hs).2.1.trans (Happens.tryMatch hi hs').2.1.symm

/-- The calls decide the book and the ledger. -/
theorem ledgered_unique {x y : OptionOrderBook SIZE × List Entry} (hx : (ledgered SIZE).Run h x)
    (hy : (ledgered SIZE).Run h y) : x = y := by
  induction hx generalizing y with
  | start h0 =>
    cases hy with
    | start h0' => exact h0.trans h0'.symm
  | next hx hs ih =>
    cases hy with
    | next hy hs' =>
      obtain rfl := ih hy
      have hi := reachable_inv (run_of_ledgered hx).reachable
      exact Prod.ext (step_unique hi hs.1 hs'.1) (hs.2.trans hs'.2.symm)

theorem settlements_run {w : OptionOrderBook SIZE × List UInt32}
    (hr : (calls (some recorder) []).Run h w) :
    ∃ ledger, (ledgered SIZE).Run h (w.1, ledger) ∧ w.2 = settlements [] ledger := by
  induction hr with
  | start h0 =>
    obtain rfl := h0
    exact ⟨[], .start rfl, rfl⟩
  | @next h w w' e hr hs ih =>
    obtain ⟨ledger, hledger, hcalls⟩ := ih
    have hstep : (bookCalls SIZE).step w.1 e w'.1 := ⟨_, some recorder, w.2, w'.2, hs⟩
    refine ⟨ledger ++ w.1.entries e, hledger.next ⟨hstep, rfl⟩, ?_⟩
    rw [Happens.settlements (calls_inv hr) (fun s x hx => ledger_outstanding hledger hx) hs,
      hcalls, settlements_append, List.nil_append]

/-- **Fill notices settle.** A run has one ledger, and the calls of `m_fill_fn` in it are the ids of
the trades by which this ledger settles a resting party, in order. -/
theorem notices_settle {w : OptionOrderBook SIZE × List UInt32}
    (hr : (calls (some recorder) []).Run h w) :
    ∃ ledger, (∀ x, (ledgered SIZE).Run h x ↔ x = (w.1, ledger)) ∧
      w.2 = settlements [] ledger := by
  obtain ⟨ledger, hledger, hcalls⟩ := settlements_run hr
  refine ⟨ledger, fun x => ⟨fun hx => ledgered_unique hx hledger, ?_⟩, hcalls⟩
  rintro rfl
  exact hledger

/-- An ask of five units, and the bids that take three and two of them. -/
def halved : OptionOrderBook 2 × List UInt32 :=
  (add (observe (some recorder)) (.limit .bid 101 3 2)
    (add (observe (some recorder)) (.limit .ask 100 5 1) (empty, [])).2).2

def taken : OptionOrderBook 2 × List UInt32 :=
  (add (observe (some recorder)) (.limit .bid 101 2 3) halved).2

def takenCalls : List Event :=
  [.add (.limit .bid 101 2 3) false, .add (.limit .bid 101 3 2) false,
    .add (.limit .ask 100 5 1) true]

theorem taken_run : (calls (some recorder) []).Run takenCalls taken :=
  calls_add (calls_add (calls_add (.start rfl) (.limit .ask 100 5 1) (by decide +kernel))
    (.limit .bid 101 3 2) (by decide +kernel)) (.limit .bid 101 2 3) (by decide +kernel)

/-- The callback hears of the ask at the second bid. -/
theorem notices_settle_taken : halved.2 = [] ∧ taken.2 = [1] ∧
    ∃ ledger, (∀ x, (ledgered 2).Run takenCalls x ↔ x = (taken.1, ledger)) ∧
      taken.2 = settlements [] ledger :=
  ⟨by decide +kernel, by decide +kernel, notices_settle taken_run⟩

end OptionOrderBook

end Mms
