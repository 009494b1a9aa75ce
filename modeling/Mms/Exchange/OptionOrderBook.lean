import Mathlib.Data.Finmap
import Mms.Lib.Search
import Mms.Structs.Order

/-!
# The option order book (`include/mms/exchange/OptionOrderBook.hh`)

Model of `OptionOrderBook<SIZE, SYMBOL, LOG>`: `has`, `get_container`, `add`, `remove`, `try_match`.

* The two containers are lists, front first; `robin_hood::unordered_flat_map` is a finite map
  (`Finmap`). `SYMBOL` and `LOG` only reach the printed text and are left out.
* `container.erase(find(container, id))` is `eraseIdx` at `findIdx`. A search that fails gives the
  length of the list, where `eraseIdx` does nothing and the C++ `erase(end())` is undefined.
* `m_fill_fn` is passed beside the book. A callback (`FillFn`) may do anything to the book it is
  registered on and to a state `σ` of its own; `none` is the empty function. `observe` embeds the
  callbacks that read the book and change `σ` only (`Observer`), and `recorder` is the one that
  writes down its calls.
* `scan` is the `for` loop of `try_match`, `removeFilled` the loop after it that removes and
  notifies.
-/

namespace Mms

open Lib

/-- `MapT`. -/
abbrev MapT := Finmap fun _ : UInt32 => Side

/-- `OptionOrderBook`: `m_bids`, `m_asks` and `m_order_ids_to_side`. -/
structure OptionOrderBook (SIZE : ℕ) where
  bids : List Order
  asks : List Order
  orderIdsToSide : MapT

/-- `FillFn`: what a call `m_fill_fn(id)` does to the book and to the state around it. -/
abbrev FillFn (SIZE : ℕ) (σ : Type) :=
  UInt32 → OptionOrderBook SIZE × σ → OptionOrderBook SIZE × σ

/-- A callback that does not touch the book: it sees the id and the book, and changes its state. -/
abbrev Observer (SIZE : ℕ) (σ : Type) := UInt32 → OptionOrderBook SIZE → σ → σ

/-- An observer as a callback. -/
def observe {SIZE : ℕ} {σ : Type} (fill : Option (Observer SIZE σ)) : Option (FillFn SIZE σ) :=
  fill.map fun g id w => (w.1, g id w.1 w.2)

/-- The observer that writes down the ids it is called with, oldest call first. -/
def recorder {SIZE : ℕ} : Observer SIZE (List UInt32) := fun id _ calls => calls ++ [id]

/-- What the loop of `try_match` leaves: the container, the aggressor, and `ids_to_remove`. -/
structure Scan where
  container : List Order
  aggressor : Order
  idsToRemove : List UInt32

/-- What `try_match` leaves: its result, the aggressor it was given by reference, and the world. -/
structure MatchResult (SIZE : ℕ) (σ : Type) where
  consumed : UInt32
  aggressor : Order
  world : OptionOrderBook SIZE × σ

/-- `try_emplace`: the map, and whether the id was inserted. -/
def tryEmplace (m : MapT) (id : UInt32) (side : Side) : MapT × Bool :=
  if id ∈ m then (m, false) else (m.insert id side, true)

namespace OptionOrderBook

variable {SIZE : ℕ} {σ : Type}

/-- A book as constructed. -/
def empty : OptionOrderBook SIZE := ⟨[], [], ∅⟩

/-- `has`. -/
def has (b : OptionOrderBook SIZE) (id : UInt32) : Bool := decide (id ∈ b.orderIdsToSide)

/-- `get_container`. -/
def getContainer (b : OptionOrderBook SIZE) : Side → List Order
  | .bid => b.bids
  | .ask => b.asks

/-- The book with the container of `side` replaced. -/
def setContainer (b : OptionOrderBook SIZE) (side : Side) (c : List Order) : OptionOrderBook SIZE :=
  match side with
  | .bid => { b with bids := c }
  | .ask => { b with asks := c }

/-- `remove`. -/
def remove (b : OptionOrderBook SIZE) (id : UInt32) : Bool × OptionOrderBook SIZE :=
  match b.orderIdsToSide.lookup id with
  | none => (false, b)
  | some side =>
    let container := b.getContainer side
    let it := container.findIdx fun o => o.id == id
    (true, { b.setContainer side (container.eraseIdx it) with
      orderIdsToSide := b.orderIdsToSide.erase id })

/-- The loop `for (Order& passive: container)` of `try_match`. -/
def scan : Order → List Order → Scan
  | aggressor, [] => ⟨[], aggressor, []⟩
  | aggressor, passive :: rest =>
    let tradeablePrice := !Price32.isMoreCons aggressor.price passive.price aggressor.isBid
    let consumedAggressor := decide (passive.qty > aggressor.qty)
    let consumedPassive := decide (passive.qty < aggressor.qty)
    if tradeablePrice then
      if consumedPassive then
        let s := scan { aggressor with qty := aggressor.qty - passive.qty } rest
        ⟨passive :: s.container, s.aggressor, passive.id :: s.idsToRemove⟩
      else if consumedAggressor then
        ⟨{ passive with qty := passive.qty - aggressor.qty } :: rest,
          { aggressor with qty := 0 }, []⟩
      else
        -- both are consumed: the passive order stays in the container, empty, until it is removed
        ⟨{ passive with qty := 0 } :: rest, { aggressor with qty := 0 }, [passive.id]⟩
    else
      let s := scan aggressor rest
      ⟨passive :: s.container, s.aggressor, s.idsToRemove⟩

/-- The `for_each` over `ids_to_remove`: remove the order, then call `m_fill_fn` if it is set. -/
def removeFilled (fill : Option (FillFn SIZE σ)) :
    List UInt32 → OptionOrderBook SIZE × σ → OptionOrderBook SIZE × σ
  | [], w => w
  | id :: ids, (b, s) =>
    let w := ((b.remove id).2, s)
    match fill with
    | some fillFn => removeFilled fill ids (fillFn id w)
    | none => removeFilled fill ids w

/-- `try_match`. -/
def tryMatch (fill : Option (FillFn SIZE σ)) (aggressor : Order) (w : OptionOrderBook SIZE × σ) :
    MatchResult SIZE σ :=
  let oppSide := aggressor.oppSide
  let origAggressorQty := aggressor.qty
  let s := scan aggressor (w.1.getContainer oppSide)
  let w := removeFilled fill s.idsToRemove (w.1.setContainer oppSide s.container, w.2)
  ⟨origAggressorQty - s.aggressor.qty, s.aggressor, w⟩

/-- `sort_fn`: the new order goes before the first order it is applied to with result `true`. -/
def sortFn (order : Order) (isBid : Bool) (p : Price32) : Bool :=
  if isBid then decide (p ≤ order.price) else decide (p ≥ order.price)

/-- `add`. -/
def add (fill : Option (FillFn SIZE σ)) (order : Order) (w : OptionOrderBook SIZE × σ) :
    Bool × OptionOrderBook SIZE × σ :=
  if !order.isValid then (false, w)
  else
    let originalQty := order.qty
    let m := tryMatch fill order w
    let order := m.aggressor
    let fullyConsumed := m.consumed == originalQty
    if fullyConsumed then (false, m.world)
    else
      let (b, s) := m.world
      let (map, inserted) := tryEmplace b.orderIdsToSide order.id order.side
      let b := { b with orderIdsToSide := map }
      if !inserted then (false, b, s)
      else
        let container := b.getContainer order.side
        if container.length == SIZE then
          (false, { b with orderIdsToSide := b.orderIdsToSide.erase order.id }, s)
        else
          let it := container.findIdx fun o => sortFn order order.isBid o.price
          (true, b.setContainer order.side (container.insertIdx it order), s)

/-- The book `add` leaves when no callback is set. -/
def afterAdd (b : OptionOrderBook SIZE) (order : Order) : OptionOrderBook SIZE :=
  (add (none : Option (FillFn SIZE Unit)) order (b, ())).2.1

/-! ## Fields -/

@[simp] theorem getContainer_empty (s : Side) :
    (empty : OptionOrderBook SIZE).getContainer s = [] := by cases s <;> rfl

@[simp] theorem getContainer_set (b : OptionOrderBook SIZE) (s : Side) (c : List Order) :
    (b.setContainer s c).getContainer s = c := by cases s <;> rfl

@[simp] theorem getContainer_set_opp (b : OptionOrderBook SIZE) (s : Side) (c : List Order) :
    (b.setContainer s.opp c).getContainer s = b.getContainer s := by cases s <;> rfl

@[simp] theorem getContainer_set_of_opp (b : OptionOrderBook SIZE) (s : Side) (c : List Order) :
    (b.setContainer s c).getContainer s.opp = b.getContainer s.opp := by cases s <;> rfl

@[simp] theorem setContainer_index (b : OptionOrderBook SIZE) (s : Side) (c : List Order) :
    (b.setContainer s c).orderIdsToSide = b.orderIdsToSide := by cases s <;> rfl

@[simp] theorem getContainer_index (b : OptionOrderBook SIZE) (m : MapT) (s : Side) :
    ({ b with orderIdsToSide := m } : OptionOrderBook SIZE).getContainer s = b.getContainer s := by
  cases s <;> rfl

/-- Two books with the same containers and the same index are the same. -/
theorem ext_containers {b b' : OptionOrderBook SIZE}
    (hc : ∀ s, b.getContainer s = b'.getContainer s) (hi : b.orderIdsToSide = b'.orderIdsToSide) :
    b = b' := by
  obtain ⟨bids, asks, m⟩ := b
  obtain ⟨bids', asks', m'⟩ := b'
  have h1 : bids = bids' := hc .bid
  have h2 : asks = asks' := hc .ask
  have h3 : m = m' := hi
  rw [h1, h2, h3]

theorem has_iff {b : OptionOrderBook SIZE} {id : UInt32} :
    b.has id = true ↔ ∃ s, b.orderIdsToSide.lookup id = some s := by
  rw [has, decide_eq_true_eq, Finmap.mem_iff]

theorem has_eq_false_iff {b : OptionOrderBook SIZE} {id : UInt32} :
    b.has id = false ↔ b.orderIdsToSide.lookup id = none := by
  rw [has, decide_eq_false_iff_not, Finmap.lookup_eq_none]

/-- `sort_fn` asks whether the new order ranks with the resting one. -/
theorem sortFn_eq (o x : Order) :
    sortFn o o.isBid x.price = decide (Order.Ranks o.side o x) := by
  rw [Bool.eq_iff_iff, decide_eq_true_eq]
  unfold sortFn Order.isBid Order.Ranks
  cases o.side <;> simp [Side.ahead]

end OptionOrderBook

end Mms
