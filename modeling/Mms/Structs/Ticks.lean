import Mathlib.Algebra.Order.Ring.Rat

/-!
# Ticks, signals and outgoing orders (`include/mms/structs/Structs.hh`)

What the client's pipeline moves: `MarketData` from the feed to the strategy, `Signal` from the
strategy to the execution, and the order `v1::Order` that the execution sends. Prices are doubles in
the source and exact rationals here.

`Signal::Type` is an `enum class` over `u8_t`: an object of it that was never assigned can hold any
byte, so it is a wrapped byte with three named values.
-/

namespace Mms

/-- `MarketData`. -/
structure MarketData where
  seqNum : UInt64
  bid : ℚ
  ask : ℚ
  timestampNs : UInt64
  symbol : Vector UInt8 8
deriving DecidableEq

/-- `sizeof(MarketData)`: the struct is packed. -/
abbrev MarketData.size : ℕ := 8 + 8 + 8 + 8 + 8

/-- `Signal::Type`. -/
structure Signal.Kind where
  value : UInt8
deriving DecidableEq

namespace Signal.Kind

def buy : Kind := ⟨0⟩
def sell : Kind := ⟨1⟩
def hold : Kind := ⟨2⟩

end Signal.Kind

/-- `Signal`. -/
structure Signal where
  symbol : Vector UInt8 8
  type : Signal.Kind
  price : ℚ
  quantity : UInt64
  timestampNs : UInt64
deriving DecidableEq

/-- `v1::Order::Side`. -/
inductive v1.Side where
  | buy
  | sell
deriving DecidableEq

/-- `v1::Order`. -/
structure v1.Order where
  symbol : Vector UInt8 8
  side : v1.Side
  price : ℚ
  quantity : UInt64
  orderId : UInt64
  timestampNs : UInt64
deriving DecidableEq

end Mms
