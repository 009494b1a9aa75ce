import Mms.App.Strategy
import Mms.Market.MarketFeed

/-!
# The three loops of the client (`MarketFeed.cc`, `Core.cc`)

`MarketFeed::receive_loop`, `Core::_strategy_loop` and `Core::_execution_loop`, each as a program
counter and a next-state function over what the threads share (`Shared`). One step does at most one
access to a shared object: a load of `m_client_running`, an operation of a queue, an increment of a
counter. A step returns what it did (`Act`), the next program counter and the shared state.

What the environment answers to a step is an argument (`Answers`): the result of `recv` and of a
connection attempt, the memory of an uninitialised local, the clock.

* The queues are `Fifo`s of capacity `N` and `M` (4096 and 2048 in the source).
* `decode` is what `std::memcpy(&md, buffer, sizeof(MarketData))` makes of the bytes. A result of
  `recv` of that size overwrites the whole buffer, so the buffer itself is no part of the state.
* Logging, timers, `yield` and `sleep_for` are left out; so are the `catch` blocks, which belong to
  the thread functions.
-/

namespace Mms

open Lib

/-- `std::byte buffer[sizeof(MarketData)]`. -/
abbrev Packet := Vector UInt8 MarketData.size

/-- What the threads of a `Core` share. -/
structure Shared (N M : ℕ) where
  clientRunning : Bool
  marketDataQueue : Fifo MarketData N
  signalQueue : Fifo Signal M
  /-- What `p_market_feed` points to. -/
  feed : MarketFeed
  signalsGenerated : UInt64
  ordersSent : UInt64
  /-- `s_order_id_counter` of `_generate_order`. -/
  orderIdCounter : UInt64

/-- What the environment answers to a step. A step looks at its own answer only. -/
structure Answers where
  /-- `recv`: an error, or the bytes it stored. -/
  recv : Option (List UInt8)
  /-- Whether `connect_to_server` succeeds. -/
  connected : Bool
  /-- The local `Signal` of `_compute_signal` before it is assigned. -/
  memory : Signal
  now : UInt64

/-- What a step does. -/
inductive Act where
  /-- Nothing the other acts name. -/
  | tau
  | connect (connected : Bool)
  | recv (result : Option (List UInt8))
  /-- `m_ticks_received` counts the tick. -/
  | counted (md : MarketData)
  | tickPushed (md : MarketData)
  /-- A push of the tick failed. -/
  | tickFull (md : MarketData)
  /-- The spin on the full queue ended without a push. -/
  | abandoned (md : MarketData)
  | tickPopped (md : MarketData)
  | signalPushed (signal : Signal)
  | signalDropped (signal : Signal)
  | signalCounted
  | signalPopped (signal : Signal)
  /-- `_generate_order` made the order from the signal. -/
  | executed (signal : Signal) (order : v1.Order)
  | orderCounted
deriving DecidableEq

variable {N M : ℕ}

/-! ## `MarketFeed::receive_loop` -/

/-- `max_retries`. -/
def maxRetries : ℕ := 5

/-- Where `receive_loop` stands. -/
inductive ReceivePc where
  /-- `while (running_flag.load())`. -/
  | test
  /-- `if (!p_tcp_client)`. -/
  | client
  /-- `while (retry_count < max_retries && running_flag.load())`. -/
  | retry (retryCount : ℕ)
  /-- `_reconnect()`. -/
  | reconnect (retryCount : ℕ)
  /-- `if (!p_tcp_client)`, after the retries. -/
  | retried
  /-- `running_flag.store(false)`. -/
  | giveUp
  /-- `p_tcp_client->recv(...)`. -/
  | recv
  /-- `m_ticks_received.fetch_add(1)`. -/
  | count (md : MarketData)
  /-- The first `push`. -/
  | push (md : MarketData)
  /-- `m_queue_full_count.fetch_add(1)`. -/
  | full (md : MarketData)
  /-- `while (running_flag.load())` around the next pushes. -/
  | spinTest (md : MarketData)
  | spinPush (md : MarketData)
  | exited
deriving DecidableEq

/-- A step of `receive_loop`. -/
def receiveNext (decode : Packet → MarketData) (env : Answers) :
    ReceivePc → Shared N M → Act × ReceivePc × Shared N M
  | .test, s => (.tau, if s.clientRunning then .client else .exited, s)
  | .client, s => (.tau, if s.feed.tcpClient then .recv else .retry 0, s)
  | .retry n, s =>
    (.tau, if n < maxRetries ∧ s.clientRunning = true then .reconnect n else .retried, s)
  | .reconnect n, s =>
    let (error, feed) := s.feed.reconnect env.connected
    (.connect env.connected, if error.isNone then .retried else .retry (n + 1),
      { s with feed := feed })
  | .retried, s => (.tau, if s.feed.tcpClient then .test else .giveUp, s)
  | .giveUp, s => (.tau, .exited, { s with clientRunning := false })
  | .recv, s =>
    match env.recv with
    | none => (.recv none, .test, { s with feed := s.feed.disconnect })
    | some bytes =>
      (.recv (some bytes),
        if h : bytes.length = MarketData.size then .count (decode ⟨bytes.toArray, h⟩)
        -- "Received incomplete market data packet. Discarding..."
        else .test, s)
  | .count md, s =>
    (.counted md, .push md,
      { s with feed := { s.feed with ticksReceived := s.feed.ticksReceived + 1 } })
  | .push md, s =>
    match s.marketDataQueue.push md with
    | some q => (.tickPushed md, .test, { s with marketDataQueue := q })
    | none => (.tickFull md, .full md, s)
  | .full md, s =>
    (.tau, .spinTest md,
      { s with feed := { s.feed with queueFullCount := s.feed.queueFullCount + 1 } })
  | .spinTest md, s =>
    if s.clientRunning then (.tau, .spinPush md, s) else (.abandoned md, .test, s)
  | .spinPush md, s =>
    match s.marketDataQueue.push md with
    | some q => (.tickPushed md, .test, { s with marketDataQueue := q })
    | none => (.tickFull md, .spinTest md, s)
  | .exited, s => (.tau, .exited, s)

/-! ## `Core::_strategy_loop` -/

/-- Where `_strategy_loop` stands. -/
inductive StrategyPc where
  /-- `while (m_client_running.load())`. -/
  | test
  /-- `m_market_data_queue.pop(md)`. -/
  | pop
  /-- `m_signal_queue.push(signal)`. -/
  | push (signal : Signal)
  /-- `m_signals_generated.fetch_add(1)`. -/
  | count
  | exited
deriving DecidableEq

/-- A step of `_strategy_loop`. -/
def strategyNext (env : Answers) : StrategyPc → Shared N M → Act × StrategyPc × Shared N M
  | .test, s => (.tau, if s.clientRunning then .pop else .exited, s)
  | .pop, s =>
    match s.marketDataQueue.pop with
    | some (md, q) =>
      (.tickPopped md, match Core.strategyBody env.memory md with
        | some signal => .push signal
        | none => .test, { s with marketDataQueue := q })
    | none => (.tau, .test, s)
  | .push signal, s =>
    match s.signalQueue.push signal with
    | some q => (.signalPushed signal, .count, { s with signalQueue := q })
    | none => (.signalDropped signal, .test, s)
  | .count, s => (.signalCounted, .test, { s with signalsGenerated := s.signalsGenerated + 1 })
  | .exited, s => (.tau, .exited, s)

/-! ## `Core::_execution_loop` -/

/-- Where `_execution_loop` stands. -/
inductive ExecutionPc where
  /-- `while (m_client_running.load())`. -/
  | test
  /-- `m_signal_queue.pop(signal)`. -/
  | pop
  /-- `_generate_order(signal)`. -/
  | generate (signal : Signal)
  /-- `m_orders_sent.fetch_add(1)`. -/
  | count
  | exited
deriving DecidableEq

/-- A step of `_execution_loop`. -/
def executionNext (env : Answers) : ExecutionPc → Shared N M → Act × ExecutionPc × Shared N M
  | .test, s => (.tau, if s.clientRunning then .pop else .exited, s)
  | .pop, s =>
    match s.signalQueue.pop with
    | some (signal, q) => (.signalPopped signal, .generate signal, { s with signalQueue := q })
    | none => (.tau, .test, s)
  | .generate signal, s =>
    let (order, counter) := Core.generateOrder s.orderIdCounter env.now signal
    (.executed signal order, .count, { s with orderIdCounter := counter })
  | .count, s => (.orderCounted, .test, { s with ordersSent := s.ordersSent + 1 })
  | .exited, s => (.tau, .exited, s)

/-! ## What a loop leaves alone -/

/-- `receive_loop` touches neither the signal queue nor the counters of the other loops. -/
theorem receiveNext_frame (decode : Packet → MarketData) (env : Answers) (pc : ReceivePc)
    (s : Shared N M) :
    let s' := (receiveNext decode env pc s).2.2
    s'.signalQueue = s.signalQueue ∧ s'.signalsGenerated = s.signalsGenerated ∧
      s'.ordersSent = s.ordersSent ∧ (s'.clientRunning = true → s.clientRunning = true) := by
  unfold receiveNext
  split <;> (try split) <;> simp

/-- `_strategy_loop` touches neither the flag, nor the feed, nor the count of orders. -/
theorem strategyNext_frame (env : Answers) (pc : StrategyPc) (s : Shared N M) :
    let s' := (strategyNext env pc s).2.2
    s'.clientRunning = s.clientRunning ∧ s'.feed = s.feed ∧ s'.ordersSent = s.ordersSent := by
  unfold strategyNext
  split <;> (try split) <;> simp

/-- `_execution_loop` touches neither the flag, nor the feed, nor the ticks, nor the count of
signals. -/
theorem executionNext_frame (env : Answers) (pc : ExecutionPc) (s : Shared N M) :
    let s' := (executionNext env pc s).2.2
    s'.clientRunning = s.clientRunning ∧ s'.feed = s.feed ∧
      s'.marketDataQueue = s.marketDataQueue ∧ s'.signalsGenerated = s.signalsGenerated := by
  unfold executionNext
  split <;> (try split) <;> simp

end Mms
