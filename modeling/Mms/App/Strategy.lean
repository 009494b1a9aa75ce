import Mathlib.Tactic.NormNum
import Mms.Structs.Ticks

/-!
# From a tick to an order (`src/mms/app/Core.cc`)

`_compute_signal`, the `HOLD` filter of `_strategy_loop` and `_generate_order`, on one tick and on a
sequence of ticks.

`_compute_signal` declares `Signal signal;` and returns it without assigning every field on every
path. What the object holds before is an argument of the model (`memory`), as are the clock and
whether the push of the signal succeeds (`Surroundings`).

* `strategyBody_of_tight`, `strategyBody_of_wide`: what reaches the push, by the spread of the tick.
* `tick_to_order_safe_iff`: a sequence of ticks is handled as documented, whatever the memory held,
  iff every spread is tight.
-/

namespace Mms

namespace Core

/-- `_compute_signal`, where `memory` is what the local object holds before. -/
def computeSignal (memory : Signal) (md : MarketData) : Signal :=
  let signal := { memory with symbol := md.symbol, timestampNs := md.timestampNs }
  let spread := md.ask - md.bid
  let mid := (md.ask + md.bid) / 2
  if spread < 0.05 then
    if mid < 190 then { signal with type := .buy, price := md.ask, quantity := 100 }
    else if mid > 190.0005 then { signal with type := .sell, price := md.bid, quantity := 100 }
    else { signal with type := .hold, price := -1 }
  -- no branch for a wider spread: type, price and quantity stay as they are
  else signal

/-- The signal `_strategy_loop` pushes for a tick: none on `HOLD`. -/
def strategyBody (memory : Signal) (md : MarketData) : Option Signal :=
  let signal := computeSignal memory md
  if signal.type ≠ .hold then some signal else none

/-- `_generate_order`, with the next id of `s_order_id_counter`. -/
def generateOrder (orderIdCounter now : UInt64) (signal : Signal) : v1.Order × UInt64 :=
  let order : v1.Order :=
    { symbol := signal.symbol
      side := if signal.type = .buy then .buy else .sell
      price := signal.price
      quantity := signal.quantity
      orderId := orderIdCounter
      timestampNs := now }
  (order, orderIdCounter + 1)

/-- What surrounds one tick on its way: the memory of the local `Signal`, whether the signal queue
accepts the push, and the clock when the order is generated. -/
structure Surroundings where
  memory : Signal
  accepted : Bool
  now : UInt64

/-- The order of one tick, if any, and the counter after it. -/
def tickToOrder (counter : UInt64) (md : MarketData) (env : Surroundings) :
    Option v1.Order × UInt64 :=
  match strategyBody env.memory md with
  | some signal =>
    if env.accepted then
      let (order, counter) := generateOrder counter env.now signal
      (some order, counter)
    else (none, counter)
  | none => (none, counter)

/-- The orders of a sequence of ticks, tick by tick. -/
def ticksToOrders : UInt64 → List (MarketData × Surroundings) → List (Option v1.Order)
  | _, [] => []
  | counter, (md, env) :: rest =>
    let (order, counter) := tickToOrder counter md env
    order :: ticksToOrders counter rest

/-! ## What a tick may cause -/

/-- The tick calls for a `BUY`. -/
def CallsForBuy (md : MarketData) : Prop :=
  md.ask - md.bid < 0.05 ∧ (md.ask + md.bid) / 2 < 190

/-- The tick calls for a `SELL`. -/
def CallsForSell (md : MarketData) : Prop :=
  md.ask - md.bid < 0.05 ∧ (md.ask + md.bid) / 2 > 190.0005

/-- The order is one the tick calls for. -/
def Justified (md : MarketData) (o : v1.Order) : Prop :=
  ((CallsForBuy md ∧ o.side = .buy ∧ o.price = md.ask) ∨
    (CallsForSell md ∧ o.side = .sell ∧ o.price = md.bid)) ∧
  o.quantity = 100 ∧ o.symbol = md.symbol

/-- **Tick-to-order safety** of a sequence: every order is justified by its tick, and a tick that
calls for nothing causes no signal. -/
structure Safe (counter : UInt64) (xs : List (MarketData × Surroundings)) : Prop where
  orders : List.Forall₂ (fun x out => ∀ o, out = some o → Justified x.1 o) xs
    (ticksToOrders counter xs)
  quiet : ∀ x ∈ xs, ¬ CallsForBuy x.1 → ¬ CallsForSell x.1 →
    strategyBody x.2.memory x.1 = none

/-- Two runs on the same ticks that differ in the memory of the signal only. -/
def SameButMemory (xs ys : List (MarketData × Surroundings)) : Prop :=
  List.Forall₂ (fun x y => x.1 = y.1 ∧ x.2.accepted = y.2.accepted ∧ x.2.now = y.2.now) xs ys

/-! ## One tick -/

/-- With a tight spread the memory does not matter: what reaches the push. -/
theorem strategyBody_of_tight {md : MarketData} (h : md.ask - md.bid < 0.05) (memory : Signal) :
    strategyBody memory md =
      if (md.ask + md.bid) / 2 < 190 then some ⟨md.symbol, .buy, md.ask, 100, md.timestampNs⟩
      else if (md.ask + md.bid) / 2 > 190.0005 then
        some ⟨md.symbol, .sell, md.bid, 100, md.timestampNs⟩
      else none := by
  unfold strategyBody computeSignal
  simp only [if_pos h]
  split
  · rfl
  · split
    · rfl
    · exact if_neg (by simp)

/-- With a wide spread the memory is pushed, with the tick's symbol, unless it reads `HOLD`. -/
theorem strategyBody_of_wide {md : MarketData} (h : ¬ md.ask - md.bid < 0.05) (memory : Signal) :
    strategyBody memory md = if memory.type ≠ .hold then
      some { memory with symbol := md.symbol, timestampNs := md.timestampNs } else none := by
  unfold strategyBody computeSignal
  simp only [if_neg h]

/-- A signal of a tight tick makes a justified order. -/
theorem justified_of_tight {md : MarketData} (h : md.ask - md.bid < 0.05) {memory signal : Signal}
    (hs : strategyBody memory md = some signal) (counter now : UInt64) :
    Justified md (generateOrder counter now signal).1 := by
  rw [strategyBody_of_tight h] at hs
  split at hs
  · rename_i hbuy
    rw [← Option.some.inj hs]
    exact ⟨Or.inl ⟨⟨h, hbuy⟩, rfl, rfl⟩, rfl, rfl⟩
  · split at hs
    · rename_i hsell
      rw [← Option.some.inj hs]
      exact ⟨Or.inr ⟨⟨h, hsell⟩, rfl, rfl⟩, rfl, rfl⟩
    · exact absurd hs (by simp)

/-- The order of a tight tick is justified. -/
theorem tickToOrder_justified {md : MarketData} (h : md.ask - md.bid < 0.05) (counter : UInt64)
    (env : Surroundings) {o : v1.Order} (ho : (tickToOrder counter md env).1 = some o) :
    Justified md o := by
  unfold tickToOrder at ho
  split at ho
  · rename_i signal hs
    split at ho
    · rw [← Option.some.inj ho]
      exact justified_of_tight h hs counter env.now
    · exact absurd ho (by simp)
  · exact absurd ho (by simp)

/-- A tight tick that calls for nothing causes nothing. -/
theorem quiet_of_tight {md : MarketData} (h : md.ask - md.bid < 0.05) (hb : ¬ CallsForBuy md)
    (hs : ¬ CallsForSell md) (memory : Signal) : strategyBody memory md = none := by
  rw [strategyBody_of_tight h, if_neg fun hm => hb ⟨h, hm⟩, if_neg fun hm => hs ⟨h, hm⟩]

/-! ## A sequence of ticks -/

theorem orders_justified {xs : List (MarketData × Surroundings)}
    (h : ∀ x ∈ xs, x.1.ask - x.1.bid < 0.05) (counter : UInt64) :
    List.Forall₂ (fun x out => ∀ o, out = some o → Justified x.1 o) xs
      (ticksToOrders counter xs) := by
  induction xs generalizing counter with
  | nil => exact List.Forall₂.nil
  | cons x xs ih =>
    have hhead : x.1.ask - x.1.bid < 0.05 := h x List.mem_cons_self
    exact List.Forall₂.cons (fun o ho => tickToOrder_justified hhead counter x.2 ho)
      (ih (fun y hy => h y (List.mem_cons_of_mem _ hy)) _)

/-- **Tight ticks hide the memory**: two runs that differ in it only generate the same orders. -/
theorem ticksToOrders_eq {xs ys : List (MarketData × Surroundings)} (he : SameButMemory xs ys)
    (h : ∀ x ∈ xs, x.1.ask - x.1.bid < 0.05) (counter : UInt64) :
    ticksToOrders counter xs = ticksToOrders counter ys := by
  induction he generalizing counter with
  | nil => rfl
  | @cons x y xs ys hxy _ ih =>
    obtain ⟨md, env⟩ := x
    obtain ⟨md', env'⟩ := y
    obtain ⟨rfl, ha, hn⟩ := hxy
    have hone : tickToOrder counter md env = tickToOrder counter md env' := by
      unfold tickToOrder
      rw [strategyBody_of_tight (h _ List.mem_cons_self),
        strategyBody_of_tight (h _ List.mem_cons_self), ha, hn]
    have hrest := ih fun z hz => h z (List.mem_cons_of_mem _ hz)
    simp only [ticksToOrders, hone, hrest]

/-- **When ticks are handled safely.** On a sequence of ticks, whatever the memory of the local
signal held at each of them, every order is justified by its tick, the other ticks cause nothing,
and the memory does not show in the orders, iff every tick has a spread below 0.05. -/
theorem tick_to_order_safe_iff (counter : UInt64) (ticks : List MarketData) :
    ((∀ xs : List (MarketData × Surroundings), xs.map Prod.fst = ticks → Safe counter xs) ∧
      ∀ xs ys : List (MarketData × Surroundings), xs.map Prod.fst = ticks → SameButMemory xs ys →
        ticksToOrders counter xs = ticksToOrders counter ys) ↔
    ∀ md ∈ ticks, md.ask - md.bid < 0.05 := by
  have hmem : ∀ {xs : List (MarketData × Surroundings)}, xs.map Prod.fst = ticks →
      (∀ md ∈ ticks, md.ask - md.bid < 0.05) → ∀ x ∈ xs, x.1.ask - x.1.bid < 0.05 := by
    rintro xs rfl h x hx
    exact h x.1 (List.mem_map_of_mem hx)
  constructor
  · rintro ⟨hsafe, -⟩ md hmd
    by_contra hwide
    -- a memory that reads `BUY` is pushed for the wide tick
    have hbuy : Signal.Kind.buy ≠ .hold := by decide
    let env : Surroundings := ⟨⟨md.symbol, .buy, 0, 0, 0⟩, true, 0⟩
    have hxs : (ticks.map fun md => (md, env)).map Prod.fst = ticks := by
      rw [List.map_map]
      exact List.map_id ticks
    have hq := (hsafe _ hxs).quiet (md, env) (List.mem_map_of_mem hmd) (fun hb => hwide hb.1)
      fun hs => hwide hs.1
    rw [strategyBody_of_wide hwide, if_pos hbuy] at hq
    exact absurd hq (by simp)
  · intro h
    refine ⟨fun xs hxs => ⟨orders_justified (hmem hxs h) counter, fun x hx hb hs => ?_⟩,
      fun xs ys hxs he => ticksToOrders_eq he (hmem hxs h) counter⟩
    exact quiet_of_tight (hmem hxs h x hx) hb hs x.2.memory

/-- **A tick with a wide spread sends what the memory held**: a `BUY` of 12345 at 7. -/
theorem wide_spread_sends_memory :
    let md : MarketData := ⟨1, 190, 191, 0, Vector.replicate 8 65⟩
    let memory : Signal := ⟨Vector.replicate 8 0, .buy, 7, 12345, 0⟩
    ¬ md.ask - md.bid < 0.05 ∧
      ticksToOrders 1 [(md, ⟨memory, true, 0⟩)] =
        [some ⟨Vector.replicate 8 65, .buy, 7, 12345, 1, 0⟩] ∧
      ¬ Safe 1 [(md, ⟨memory, true, 0⟩)] ∧
      ticksToOrders 1 [(md, ⟨{ memory with type := .hold }, true, 0⟩)] = [none] := by
  intro md memory
  have hbuy : Signal.Kind.buy ≠ .hold := by decide
  have hwide : ¬ md.ask - md.bid < 0.05 := by norm_num [md]
  have hbody : ∀ m : Signal, strategyBody m md = if m.type ≠ .hold then
      some { m with symbol := md.symbol, timestampNs := md.timestampNs } else none :=
    strategyBody_of_wide hwide
  refine ⟨hwide, ?_, fun hsafe => ?_, ?_⟩
  · simp only [ticksToOrders, tickToOrder, hbody]
    rfl
  · have hq := hsafe.quiet _ List.mem_cons_self (fun hb => hwide hb.1) fun hs => hwide hs.1
    rw [hbody, if_pos hbuy] at hq
    exact absurd hq (by simp)
  · simp only [ticksToOrders, tickToOrder, hbody]
    rfl

end Core

end Mms
