import Mms.Structs.Order

/-!
# Options and depth messages (`include/mms/structs/Structs.hh`)

The option a message or an order is about, the depth message of the sending side
(`MarketDepthMessage`), the one of the receiving side (`InternalDepthMessage`), and the offsets of
the packet between them (`WireMessage`, `WireDepthMsgV1`).

`Option` is `Structs.Option` here, as the name is taken. `TimeStamp::Rep` is 64 bits wide.
`Option::_pad` and `Header::_reserved` are never read or written and left out.
`MarketDepthMessage::_pad` is kept, as a positional initialiser reaches it.
-/

namespace Mms

/-- `Option`. -/
structure Structs.Option where
  strike : Price32
  symbol : Symbol
  year : UInt8
  month : UInt8
  day : UInt8
  flags : UInt8
deriving DecidableEq

/-- `Option::Flags::IsCall`. -/
def Structs.Option.isCall : UInt8 := 1

/-- `MarketDepthMessage::Header`. -/
structure Header where
  tsNs : UInt64
  seq : UInt16
  version : UInt8
deriving DecidableEq

/-- `MarketDepthMessage`. -/
structure MarketDepthMessage where
  header : Header
  option : Structs.Option
  price : Price32
  flags : UInt8
  pad : Vector UInt8 1
deriving DecidableEq

/-- `MarketDepthMessage::Flags::IsBidBit`. -/
def MarketDepthMessage.isBidBit : UInt8 := 1

/-- `InternalDepthMessage`. -/
structure InternalDepthMessage where
  option : Structs.Option
  marketTsNs : UInt64
  localTs : UInt64
  price : Price32
  seq : UInt16
  flags : UInt8
deriving DecidableEq

/-- `InternalDepthMessage::Flags::IsBid`. -/
def InternalDepthMessage.isBid : UInt8 := 1

namespace WireMessage

/-- `MessageType`. -/
inductive MessageType where
  | none
  | depth
deriving DecidableEq

/-- `std::to_underlying` of a message type. -/
def MessageType.toUnderlying : MessageType → UInt8
  | .none => 0
  | .depth => 1

abbrev typeOffset : ℕ := 0
abbrev versionOffset : ℕ := typeOffset + 1
abbrev lengthOffset : ℕ := versionOffset + 1
abbrev headerSize : ℕ := lengthOffset + 2

end WireMessage

namespace WireDepthMsgV1

def version : UInt8 := 1

abbrev timestampOffset : ℕ := WireMessage.headerSize
abbrev sequenceOffset : ℕ := timestampOffset + 8
abbrev symbolOffset : ℕ := sequenceOffset + 2
abbrev yearOffset : ℕ := symbolOffset + 6
abbrev monthOffset : ℕ := yearOffset + 1
abbrev dayOffset : ℕ := monthOffset + 1
abbrev flagsOffset : ℕ := dayOffset + 1
abbrev strikeOffset : ℕ := flagsOffset + 1
abbrev priceOffset : ℕ := strikeOffset + 4
abbrev size : ℕ := priceOffset + 4

/-- `LENGTH`. -/
def length : UInt16 := UInt16.ofNat size

/-- `Buffer`. -/
abbrev Buffer := Vector UInt8 size

end WireDepthMsgV1

end Mms
