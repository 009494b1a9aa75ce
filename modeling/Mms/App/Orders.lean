import Mathlib.Data.List.Forall2
import Mms.App.Pipeline

/-!
# The orders of a run

`ticksToOrders` (`Mms.App.Strategy`) takes a tick to its order in one go. In the pipeline the
strategy pops the tick and pushes a signal, and the execution pops the signal, some time later, and
makes the order.

* `ordersOf_signals`: `ticksToOrders` in these two stages.
* `orders_of_ticks`: in every run of the pipeline the orders made are, in order, the first of those
  that `ticksToOrders` makes of the ticks popped.
* `order_justified`: so every order of a run with tight spreads is justified by a tick popped.
-/

namespace Mms

open Lib

open Mms.Core (strategyBody generateOrder tickToOrder ticksToOrders Surroundings Justified)

/-! ## Two stages -/

/-- A tick popped, what the memory of the local signal held, and whether the signal was pushed. -/
abbrev Handled := MarketData × Signal × Bool

/-- The signals pushed for a sequence of ticks. -/
def signalsOf (ys : List Handled) : List Signal :=
  ys.filterMap fun y => if y.2.2 then strategyBody y.2.1 y.1 else none

/-- The orders made from signals, each at the time it is made. -/
def ordersOf : UInt64 → List (Signal × UInt64) → List v1.Order
  | _, [] => []
  | counter, (signal, now) :: rest =>
    let (order, counter) := generateOrder counter now signal
    order :: ordersOf counter rest

theorem ordersOf_append (counter : UInt64) (xs : List (Signal × UInt64)) (signal : Signal)
    (now : UInt64) : ordersOf counter (xs ++ [(signal, now)]) =
      ordersOf counter xs ++
        [(generateOrder (counter + UInt64.ofNat xs.length) now signal).1] := by
  induction xs generalizing counter with
  | nil =>
    have h0 : counter + UInt64.ofNat ([] : List (Signal × UInt64)).length = counter :=
      UInt64.add_zero counter
    rw [h0]
    rfl
  | cons x xs ih =>
    have hlen : counter + UInt64.ofNat (x :: xs).length =
        counter + 1 + UInt64.ofNat xs.length := by
      rw [List.length_cons, Nat.add_comm, UInt64.ofNat_add, UInt64.add_assoc]
      rfl
    rw [hlen, List.cons_append]
    exact congrArg _ (ih (counter + 1))

/-- **The two stages are `ticksToOrders`**, as far as the signals pushed have been made orders of:
the surroundings of a tick are its memory, the result of its push, and the time of its order. -/
theorem ordersOf_signals {ys : List Handled} {stamped : List (Signal × UInt64)} (counter : UInt64)
    (h : stamped.map Prod.fst <+: signalsOf ys) :
    ∃ xs : List (MarketData × Surroundings), xs.map Prod.fst = ys.map Prod.fst ∧
      ordersOf counter stamped <+: (ticksToOrders counter xs).filterMap id := by
  induction ys generalizing counter stamped with
  | nil =>
    have hnil : stamped = [] := List.map_eq_nil_iff.mp (List.prefix_nil.mp h)
    rw [hnil]
    exact ⟨[], rfl, List.prefix_rfl⟩
  | cons y ys ih =>
    obtain ⟨md, memory, accepted⟩ := y
    by_cases hs : accepted = true ∧ ∃ signal, strategyBody memory md = some signal
    · obtain ⟨rfl, signal, hbody⟩ := hs
      have hcons : signalsOf ((md, memory, true) :: ys) = signal :: signalsOf ys :=
        List.filterMap_cons_some (by rw [if_pos rfl]; exact hbody)
      rw [hcons] at h
      have hone : ∀ now, tickToOrder counter md ⟨memory, true, now⟩ =
          (some (generateOrder counter now signal).1, counter + 1) := by
        intro now
        unfold tickToOrder
        rw [hbody]
        rfl
      cases stamped with
      | nil =>
        have hnil : ([] : List (Signal × UInt64)).map Prod.fst <+: signalsOf ys := List.nil_prefix
        obtain ⟨xs, hxs, -⟩ := ih (counter + 1) hnil
        exact ⟨(md, ⟨memory, true, 0⟩) :: xs, congrArg (md :: ·) hxs, List.nil_prefix⟩
      | cons x stamped =>
        obtain ⟨signal', now⟩ := x
        obtain ⟨rfl, hrest⟩ := List.cons_prefix_cons.mp h
        obtain ⟨xs, hxs, horders⟩ := ih (counter + 1) hrest
        refine ⟨(md, ⟨memory, true, now⟩) :: xs, congrArg (md :: ·) hxs, ?_⟩
        simp only [ticksToOrders, hone]
        exact List.cons_prefix_cons.mpr ⟨rfl, horders⟩
    · have hnone : (if accepted then strategyBody memory md else none) = none := by
        cases accepted with
        | false => rfl
        | true => exact Option.eq_none_iff_forall_ne_some.mpr fun signal hb => hs ⟨rfl, signal, hb⟩
      have hcons : signalsOf ((md, memory, accepted) :: ys) = signalsOf ys :=
        List.filterMap_cons_none hnone
      obtain ⟨xs, hxs, horders⟩ := ih counter (hcons ▸ h)
      have hone : tickToOrder counter md ⟨memory, accepted, 0⟩ = (none, counter) := by
        unfold tickToOrder
        cases hbody : strategyBody memory md with
        | none => rfl
        | some signal =>
          have hfalse : accepted = false :=
            Bool.eq_false_iff.mpr fun ha => hs ⟨ha, signal, hbody⟩
          rw [hfalse]
          rfl
      refine ⟨(md, ⟨memory, accepted, 0⟩) :: xs, congrArg (md :: ·) hxs, ?_⟩
      simp only [ticksToOrders, hone]
      exact horders

namespace Pipeline

variable {N M : ℕ} {decode : Packet → MarketData} {h : List Label} {p : Pipeline N M} {e : Label}

/-! ## What every step keeps -/

/-- The orders made. -/
def orders : Label → Option v1.Order
  | .thread .execution (.executed _ order) => some order
  | _ => none

/-- The signals pushed are those of the ticks popped, as `ys` says they were handled; the last tick
may still have its signal in the hands of the loop. -/
def Handles (h : List Label) (pc : StrategyPc) : Prop :=
  ∃ ys : List Handled, ys.map Prod.fst = LTS.seen ticksPopped h ∧
    signalsOf ys = LTS.seen signalsPushed h ∧
    ∀ signal ∈ pc.hand, ∃ ys' md memory, ys = ys' ++ [(md, memory, false)] ∧
      strategyBody memory md = some signal

/-- The orders made are those of the signals executed, with the ids from `counter` on. -/
def Makes (counter : UInt64) (h : List Label) (s : Shared N M) : Prop :=
  ∃ stamped : List (Signal × UInt64), stamped.map Prod.fst = LTS.seen executed h ∧
    LTS.seen orders h = ordersOf counter stamped ∧
    s.orderIdCounter = counter + UInt64.ofNat stamped.length

theorem signalsOf_append (ys : List Handled) (y : Handled) :
    signalsOf (ys ++ [y]) =
      signalsOf ys ++ (if y.2.2 then strategyBody y.2.1 y.1 else none).toList := by
  unfold signalsOf
  rw [List.filterMap_append, List.filterMap_cons]
  split <;> simp_all

theorem receiveNext_counter (env : Answers) (pc : ReceivePc) (s : Shared N M) :
    (receiveNext decode env pc s).2.2.orderIdCounter = s.orderIdCounter := by
  unfold receiveNext
  split <;> (try split) <;> rfl

theorem strategyNext_counter (env : Answers) (pc : StrategyPc) (s : Shared N M) :
    (strategyNext env pc s).2.2.orderIdCounter = s.orderIdCounter := by
  unfold strategyNext
  split <;> (try split) <;> rfl

/-- A step that pops no tick and pushes no signal. -/
theorem Handles.frame {pc pc' : StrategyPc} (hh : Handles h pc)
    (he : ticksPopped e = none ∧ signalsPushed e = none)
    (hhand : ∀ signal ∈ pc'.hand, signal ∈ pc.hand) : Handles (e :: h) pc' := by
  obtain ⟨ys, hpopped, hpushed, hpc⟩ := hh
  refine ⟨ys, ?_, ?_, fun signal hs => hpc signal (hhand signal hs)⟩
  · rw [LTS.seen_cons, he.1, Option.toList_none, List.append_nil, hpopped]
  · rw [LTS.seen_cons, he.2, Option.toList_none, List.append_nil, hpushed]

/-- **Every step of `_strategy_loop`** handles a tick as `strategyBody` says. -/
theorem Handles.strategy {pc : StrategyPc} {s : Shared N M} (hh : Handles h pc) (env : Answers) :
    Handles (.thread .strategy (strategyNext env pc s).1 :: h) (strategyNext env pc s).2.1 := by
  cases pc with
  | test =>
    simp only [strategyNext]
    split
    all_goals exact hh.frame ⟨rfl, rfl⟩ fun _ hs => absurd hs List.not_mem_nil
  | pop =>
    simp only [strategyNext]
    split
    · -- the tick is handled from now on, as one without a push so far
      rename_i md q _
      obtain ⟨ys, hpopped, hpushed, -⟩ := hh
      refine ⟨ys ++ [(md, env.memory, false)], ?_, ?_, fun signal hs => ?_⟩
      · rw [List.map_append, hpopped, LTS.seen_cons]
        rfl
      · rw [signalsOf_append, hpushed, LTS.seen_cons]
        rfl
      · refine ⟨ys, md, env.memory, rfl, ?_⟩
        cases hbody : strategyBody env.memory md with
        | none =>
          rw [hbody] at hs
          exact absurd hs List.not_mem_nil
        | some signal' =>
          rw [hbody] at hs
          rw [List.mem_singleton.mp hs]
    · exact hh.frame ⟨rfl, rfl⟩ fun _ hs => absurd hs List.not_mem_nil
  | push signal =>
    simp only [strategyNext]
    split
    · obtain ⟨ys, hpopped, hpushed, hpc⟩ := hh
      obtain ⟨ys', md, memory, rfl, hbody⟩ := hpc signal List.mem_cons_self
      refine ⟨ys' ++ [(md, memory, true)], ?_, ?_, fun _ hs => absurd hs List.not_mem_nil⟩
      · rw [LTS.seen_cons, ← hpopped, List.map_append, List.map_append]
        exact (List.append_nil _).symm
      · rw [LTS.seen_cons, ← hpushed, signalsOf_append, signalsOf_append, if_pos rfl, hbody]
        exact congrArg (· ++ [signal]) (List.append_nil _).symm
    · exact hh.frame ⟨rfl, rfl⟩ fun _ hs => absurd hs List.not_mem_nil
  | count => exact hh.frame ⟨rfl, rfl⟩ fun _ hs => absurd hs List.not_mem_nil
  | exited => exact hh.frame ⟨rfl, rfl⟩ fun _ hs => hs

theorem Makes.frame {counter : UInt64} {s s' : Shared N M} (hm : Makes counter h s)
    (he : executed e = none ∧ orders e = none) (hs : s'.orderIdCounter = s.orderIdCounter) :
    Makes counter (e :: h) s' := by
  obtain ⟨stamped, hexecuted, horders, hcounter⟩ := hm
  refine ⟨stamped, ?_, ?_, hs.trans hcounter⟩
  · rw [LTS.seen_cons, he.1, Option.toList_none, List.append_nil, hexecuted]
  · rw [LTS.seen_cons, he.2, Option.toList_none, List.append_nil, horders]

/-- **Every step of `_execution_loop`** makes an order as `generateOrder` says. -/
theorem Makes.execution {counter : UInt64} {pc : ExecutionPc} {s : Shared N M}
    (hm : Makes counter h s) (env : Answers) :
    Makes counter (.thread .execution (executionNext env pc s).1 :: h)
      (executionNext env pc s).2.2 := by
  cases pc with
  | generate signal =>
    obtain ⟨stamped, hexecuted, horders, hcounter⟩ := hm
    refine ⟨stamped ++ [(signal, env.now)], ?_, ?_, ?_⟩
    · rw [List.map_append, hexecuted, LTS.seen_cons]
      rfl
    · rw [ordersOf_append, ← hcounter, ← horders, LTS.seen_cons]
      rfl
    · rw [List.length_append, UInt64.ofNat_add, ← UInt64.add_assoc, ← hcounter]
      rfl
  | pop =>
    simp only [executionNext]
    split
    all_goals exact hm.frame ⟨rfl, rfl⟩ rfl
  | test | count | exited => exact hm.frame ⟨rfl, rfl⟩ rfl

/-- What the loops make of ticks and signals, in every run. -/
theorem run_handles (hrun : (pipeline N M decode).Run h p) :
    Handles h p.strategy ∧ ∃ counter, Makes counter h p.shared := by
  refine LTS.Run.invariant
    (I := fun h p => Handles h p.strategy ∧ ∃ counter, Makes counter h p.shared) (fun p h0 => ?_)
    (fun h p e p' _ hi hs => ?_) hrun
  · refine ⟨⟨[], rfl, rfl, fun signal hs => ?_⟩, p.shared.orderIdCounter, [], rfl, rfl, ?_⟩
    · rw [h0.2.1] at hs
      exact absurd hs List.not_mem_nil
    · exact (UInt64.add_zero _).symm
  · obtain ⟨hh, counter, hm⟩ := hi
    obtain ⟨m, hm'⟩ := hs
    cases m with
    | thread role env =>
      cases role with
      | network =>
        simp only [next, Option.some.injEq, Prod.mk.injEq] at hm'
        obtain ⟨rfl, rfl⟩ := hm'
        exact ⟨hh.frame ⟨rfl, rfl⟩ fun _ hs => hs, counter,
          hm.frame ⟨rfl, rfl⟩ (receiveNext_counter env _ _)⟩
      | strategy =>
        simp only [next, Option.some.injEq, Prod.mk.injEq] at hm'
        obtain ⟨rfl, rfl⟩ := hm'
        exact ⟨hh.strategy env, counter, hm.frame ⟨rfl, rfl⟩ (strategyNext_counter env _ _)⟩
      | execution =>
        simp only [next, Option.some.injEq, Prod.mk.injEq] at hm'
        obtain ⟨rfl, rfl⟩ := hm'
        exact ⟨hh.frame ⟨rfl, rfl⟩ fun _ hs => hs, counter, hm.execution env⟩
    | stop =>
      simp only [next, Option.some.injEq, Prod.mk.injEq] at hm'
      obtain ⟨rfl, rfl⟩ := hm'
      exact ⟨hh.frame ⟨rfl, rfl⟩ fun _ hs => hs, counter, hm.frame ⟨rfl, rfl⟩ rfl⟩

/-! ## The orders of a run -/

/-- **The pipeline makes the orders of `ticksToOrders`**, in any interleaving of its loops: those it
has made so far are the first of those for the ticks it has popped, in some surroundings. -/
theorem orders_of_ticks (hrun : (pipeline N M decode).Run h p) :
    ∃ counter xs, xs.map Prod.fst = LTS.seen ticksPopped h ∧
      LTS.seen orders h <+: (ticksToOrders counter xs).filterMap id := by
  obtain ⟨⟨ys, hpopped, hpushed, -⟩, counter, stamped, hexecuted, horders, -⟩ := run_handles hrun
  obtain ⟨-, -, hex, -, hsg⟩ := run_conserved hrun
  have hprefix : stamped.map Prod.fst <+: signalsOf ys := by
    have hcarried : LTS.seen signalsPushed h =
        LTS.seen signalsPopped h ++ p.shared.signalQueue.items := hsg
    rw [hexecuted, hpushed, hcarried, hex.signals, List.append_assoc]
    exact List.prefix_append _ _
  obtain ⟨xs, hxs, hle⟩ := ordersOf_signals counter hprefix
  exact ⟨counter, xs, hxs.trans hpopped, horders ▸ hle⟩

/-- **Every order of a run is justified by a tick it popped**, as long as these have tight
spreads. -/
theorem order_justified (hrun : (pipeline N M decode).Run h p)
    (htight : ∀ md ∈ LTS.seen ticksPopped h, md.ask - md.bid < 0.05) {o : v1.Order}
    (ho : o ∈ LTS.seen orders h) : ∃ md ∈ LTS.seen ticksPopped h, Justified md o := by
  obtain ⟨counter, xs, hxs, hle⟩ := orders_of_ticks hrun
  have hall := Core.orders_justified (fun x hx => htight x.1 (hxs ▸ List.mem_map_of_mem hx)) counter
  obtain ⟨out, hout, rfl⟩ := List.mem_filterMap.mp (hle.subset ho)
  obtain ⟨i, hi⟩ := List.mem_iff_getElem?.mp hout
  obtain ⟨hlt, hget⟩ := List.getElem?_eq_some_iff.mp hi
  have hix : i < xs.length := hall.length_eq ▸ hlt
  exact ⟨(xs.get ⟨i, hix⟩).1, hxs ▸ List.mem_map_of_mem (List.get_mem xs ⟨i, hix⟩),
    hall.get hix hlt o hget⟩

end Pipeline

end Mms
