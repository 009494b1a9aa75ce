import Mms.Exchange.Engine
import Mms.Exchange.History
import Mms.Exchange.Callback
import Mms.Exchange.Mirror
import Mms.Exchange.PriceBand
import Mms.Exchange.Aggressor
import Mms.MarketData.DepthGenerator
import Mms.MarketData.DepthConsumer
import Mms.App.Framing
import Mms.App.Orders
import Mms.App.Core
import Mms.App.Lifecycle
import Mms.App.Restart
import Mms.Exchange.Laws
import Mms.Exchange.Depth
import Mms.Exchange.Ids
import Mms.MarketData.Sequence
import Mms.MarketData.Bounds
import Mms.Options.Parity
import Mms.Options.Termination
import Mms.Exchange.Ladder
import Mms.Exchange.Relabel
import Mms.App.Delivery
import Mms.App.Shutdown
import Mms.App.Retry
import Mms.App.Program
import Mms.App.Simulation
import Mms.MarketData.Feed
import Mms.Exchange.Drift
import Mms.Exchange.Batch
import Mms.Options.NoArbitrage
import Mms.Exchange.Fills
import Mms.App.Latency
