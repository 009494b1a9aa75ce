import Mms.Lib.Fifo
import Mms.Structs.Ticks

/-!
# The market feed (`src/mms/market/MarketFeed.cc`)

`MarketFeed`: `initialize`, `_reconnect`, `stop`, and what `receive_loop` does to the connection.
Of `p_tcp_client` only matters whether there is a client; whether a connection attempt succeeds is
an argument. The configuration is left out, and the queue is where the loop runs
(`Mms.App.Loops`).
-/

namespace Mms

/-- `CoreError`. -/
inductive CoreError where
  | initClientFail
  | serverNotOnline
  | initServerFail
  | invalidState
deriving DecidableEq

/-- `MarketFeed`. -/
structure MarketFeed where
  tcpClient : Bool
  initialized : Bool
  ticksReceived : UInt64
  queueFullCount : UInt64
deriving DecidableEq

namespace MarketFeed

/-- The constructor. -/
def new : MarketFeed := ⟨false, false, 0, 0⟩

/-- `initialize`: `none` on success. -/
def initializeFeed (connected : Bool) (feed : MarketFeed) : Option CoreError × MarketFeed :=
  if feed.initialized then (none, feed)
  else if connected then (none, { feed with tcpClient := true, initialized := true })
  else (some .serverNotOnline, { feed with tcpClient := false, initialized := false })

/-- `_reconnect`: `none` on success. -/
def reconnect (connected : Bool) (feed : MarketFeed) : Option CoreError × MarketFeed :=
  if connected then (none, { feed with tcpClient := true, initialized := true })
  else (some .serverNotOnline, { feed with tcpClient := false, initialized := false })

/-- `p_tcp_client.reset(); m_initialized.store(false)`: what `receive_loop` does when `recv` fails,
and `stop` when the feed is destroyed. -/
def disconnect (feed : MarketFeed) : MarketFeed :=
  { feed with tcpClient := false, initialized := false }

end MarketFeed

end Mms
