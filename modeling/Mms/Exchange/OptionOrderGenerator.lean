import Mathlib.Data.List.MinMax
import Mms.Lib.Transition
import Mms.Structs.Messages

/-!
# The option order generator (`src/mms/exchange/OptionOrderGenerator.cc`)

Model of `OptionOrderGenerator`: a list of live orders, an id counter, and the loop `run`, which
cancels a live order, or submits an aggressor, or submits a bid and an ask around the mid price.

* `m_add_fn` and `m_remove_fn` act on a world `ω × OptionOrderGenerator F`: what they are connected
  to, and the generator itself, since a fill it causes comes back through `notify_fill`.
* The random draws and the clock readings of one pass are an argument (`Draws`); `Draws.Allowed`
  says what the distributions can give. The weights and the action draw are floats, of which only
  `<` and `+` are used: any type `F` with these.
* Prices are 32-bit and wrap where the C++ arithmetic overflows.
* `run` is a transition system. Its state is the world and the orders of the current pass that are
  still to be submitted, so every single submission is a step; no order is left between passes.
-/

namespace Mms

open Lib

/-- `OptionOrderGeneratorConfig`, less the time to sleep between passes. -/
structure OptionOrderGeneratorConfig (F : Type) where
  midPrice : Price32
  spreadHalfWidth : Price32
  aggressorOffset : Price32
  mmLotMax : UInt32
  aggressorLotMax : UInt32
  aggressorWeight : F
  cancelWeight : F

/-- `OptionOrderGenerator`, less the two callbacks and the generator of random numbers. -/
structure OptionOrderGenerator (F : Type) where
  option : Structs.Option
  config : OptionOrderGeneratorConfig F
  liveOrders : List Order
  nextId : UInt32

/-- `m_add_fn` and `m_remove_fn`. -/
structure Wiring (ω F : Type) where
  addFn : Order → ω × OptionOrderGenerator F → Bool × ω × OptionOrderGenerator F
  removeFn : UInt32 → ω × OptionOrderGenerator F → Bool × ω × OptionOrderGenerator F

/-- What one pass of `run` draws. A branch looks at its own draws only. -/
structure Draws (F : Type) where
  /-- `action_dist`. -/
  r : F
  /-- `idx_dist` of `pick_cancel_id`. -/
  index : ℕ
  /-- `side_dist`. -/
  side : ℤ
  /-- `qty_dist` of the aggressor. -/
  aggressorQty : UInt32
  /-- `spread_dist` and `qty_dist` of the bid. -/
  bidJitter : Int32
  bidQty : UInt32
  /-- `spread_dist` and `qty_dist` of the ask. -/
  askJitter : Int32
  askQty : UInt32
  /-- The clock at the first and at the second order of the pass. -/
  now : UInt64
  now' : UInt64

namespace OptionOrderGenerator

variable {F ω : Type}

/-- The constructor. -/
def new (option : Structs.Option) (config : OptionOrderGeneratorConfig F) :
    OptionOrderGenerator F := ⟨option, config, [], 0⟩

/-- `_make_order`. -/
def makeOrder (g : OptionOrderGenerator F) (side : Side) (price : Price32) (qty : UInt32)
    (now : UInt64) : Order × OptionOrderGenerator F :=
  let id := g.nextId + 1
  (⟨g.option.symbol, side, price, qty, id, now, g.option.flags⟩, { g with nextId := id })

/-- `_track`. -/
def track (g : OptionOrderGenerator F) (order : Order) : OptionOrderGenerator F :=
  { g with liveOrders := g.liveOrders ++ [order] }

/-- `_untrack`. -/
def untrack (g : OptionOrderGenerator F) (id : UInt32) : OptionOrderGenerator F :=
  let it := g.liveOrders.findIdx fun o => o.id == id
  if it < g.liveOrders.length then { g with liveOrders := g.liveOrders.eraseIdx it } else g

/-- `_best_bid`. -/
def bestBid (g : OptionOrderGenerator F) : Price32 :=
  let fallback : Price32 := ⟨g.config.midPrice.price - g.config.spreadHalfWidth.price⟩
  let bids := g.liveOrders.filter fun o => o.side = .bid
  match bids.argmax Order.price with
  | none => fallback
  | some o => o.price

/-- `_best_ask`. -/
def bestAsk (g : OptionOrderGenerator F) : Price32 :=
  let fallback : Price32 := ⟨g.config.midPrice.price + g.config.spreadHalfWidth.price⟩
  let asks := g.liveOrders.filter fun o => o.side = .ask
  match asks.argmin Order.price with
  | none => fallback
  | some o => o.price

/-- `generate_mm_order`. -/
def generateMmOrder (g : OptionOrderGenerator F) (side : Side) (jitter : Int32) (qty : UInt32)
    (now : UInt64) : Order × OptionOrderGenerator F :=
  let mid := g.config.midPrice.price
  let price : Price32 := if side = .bid then ⟨mid - jitter⟩ else ⟨mid + jitter⟩
  g.makeOrder side price qty now

/-- `generate_aggressor_order`. -/
def generateAggressorOrder (g : OptionOrderGenerator F) (side : Side) (qty : UInt32)
    (now : UInt64) : Order × OptionOrderGenerator F :=
  let offset := g.config.aggressorOffset.price
  let price : Price32 :=
    if side = .bid then ⟨g.bestAsk.price + offset⟩ else ⟨g.bestBid.price - offset⟩
  g.makeOrder side price qty now

/-- `pick_cancel_id`. -/
def pickCancelId (g : OptionOrderGenerator F) (index : ℕ) : Option UInt32 :=
  if g.liveOrders.isEmpty then none else (g.liveOrders[index]?).map Order.id

/-- `notify_fill`. -/
def notifyFill (g : OptionOrderGenerator F) (id : UInt32) : OptionOrderGenerator F := g.untrack id

/-- `seed`. -/
def seed (g : OptionOrderGenerator F) (order : Order) : OptionOrderGenerator F := g.track order

/-- `if (m_add_fn(order)) _track(order)`. -/
def submit (fns : Wiring ω F) (order : Order) (w : ω × OptionOrderGenerator F) :
    ω × OptionOrderGenerator F :=
  let (added, w) := fns.addFn order w
  if added then (w.1, w.2.track order) else w

/-- `m_remove_fn(*id); _untrack(*id)`. -/
def cancel (fns : Wiring ω F) (id : UInt32) (w : ω × OptionOrderGenerator F) :
    ω × OptionOrderGenerator F :=
  let (_, w) := fns.removeFn id w
  (w.1, w.2.untrack id)

/-! ## The loop -/

/-- What the distributions of one pass can give. -/
structure Allowed (g : OptionOrderGenerator F) (d : Draws F) : Prop where
  index : g.liveOrders ≠ [] → d.index < g.liveOrders.length
  side : d.side = 0 ∨ d.side = 1
  aggressorQty : 1 ≤ d.aggressorQty ∧ d.aggressorQty ≤ g.config.aggressorLotMax
  bidJitter : 1 ≤ d.bidJitter ∧ d.bidJitter ≤ g.config.spreadHalfWidth.price
  bidQty : 1 ≤ d.bidQty ∧ d.bidQty ≤ g.config.mmLotMax
  askJitter : 1 ≤ d.askJitter ∧ d.askJitter ≤ g.config.spreadHalfWidth.price
  askQty : 1 ≤ d.askQty ∧ d.askQty ≤ g.config.mmLotMax

/-- A state of the loop: the world, and what the current pass has still to submit. -/
structure Loop (ω F : Type) where
  world : ω × OptionOrderGenerator F
  pending : List Order

/-- A step of the loop: a pass up to its submissions, or the next submission. -/
inductive Act (F : Type) where
  | pass (d : Draws F)
  | submit (order : Order)

variable [LT F] [DecidableLT F] [Add F]

/-- The body of the loop of `run`, up to its submissions. -/
def pass (fns : Wiring ω F) (d : Draws F) (w : ω × OptionOrderGenerator F) : Loop ω F :=
  let g := w.2
  if d.r < g.config.cancelWeight then
    match g.pickCancelId d.index with
    | some id => ⟨cancel fns id w, []⟩
    | none => ⟨w, []⟩
  else if d.r < g.config.cancelWeight + g.config.aggressorWeight then
    let side : Side := if d.side = 0 then .bid else .ask
    let (order, g) := g.generateAggressorOrder side d.aggressorQty d.now
    ⟨(w.1, g), [order]⟩
  else
    let (bid, g) := g.generateMmOrder .bid d.bidJitter d.bidQty d.now
    let (ask, g) := g.generateMmOrder .ask d.askJitter d.askQty d.now'
    ⟨(w.1, g), [bid, ask]⟩

/-- The body of the loop of `run`. -/
def iteration (fns : Wiring ω F) (d : Draws F) (w : ω × OptionOrderGenerator F) :
    ω × OptionOrderGenerator F :=
  (pass fns d w).pending.foldl (fun w order => submit fns order w) (pass fns d w).world

/-- `run`, from the world `w0`: passes begin when nothing is left to submit. -/
def run (fns : Wiring ω F) (w0 : ω × OptionOrderGenerator F) : LTS (Loop ω F) (Act F) where
  init s := s = ⟨w0, []⟩
  step s a s' := match a with
    | .pass d => s.pending = [] ∧ s.world.2.Allowed d ∧ s' = pass fns d s.world
    | .submit order => ∃ rest, s.pending = order :: rest ∧ s' = ⟨submit fns order s.world, rest⟩

/-! ## The steps of the functions -/

variable {fns : Wiring ω F} {w0 w : ω × OptionOrderGenerator F}

/-- The submissions of a pass, one step each. -/
theorem run_submitAll {pending : List Order} (hr : (run fns w0).Reachable ⟨w, pending⟩) :
    (run fns w0).Reachable ⟨pending.foldl (fun w order => submit fns order w) w, []⟩ := by
  induction pending generalizing w with
  | nil => exact hr
  | cons order rest ih => exact ih (hr.next (e := .submit order) ⟨rest, rfl, rfl⟩)

/-- **The steps add up to the body of the loop.** -/
theorem run_iteration {d : Draws F} (hr : (run fns w0).Reachable ⟨w, []⟩) (hd : w.2.Allowed d) :
    (run fns w0).Reachable ⟨iteration fns d w, []⟩ :=
  run_submitAll (hr.next (e := .pass d) ⟨rfl, hd, rfl⟩)

end OptionOrderGenerator

end Mms
