import Mms.App.Pipeline

/-!
# The life of a `Core` (`include/mms/app/Core.hh`, `src/mms/app/Core.cc`)

`Core` as a controlling thread and the worker threads it has started. The controlling thread calls
`initialize_client`, `work_client`, `stop_client` and at last the destructor, one statement a step
(`Control`); the workers run the loops of `Mms.App.Loops`; the steps interleave in any order.

* `threads` lists every worker thread ever started, in the order of their start; a worker that has
  left its loop stays in the list and is not live. `jthread role` is the thread that the member
  `m_network_thread`, `m_strategy_thread` or `m_execution_thread` owns.
* An assignment to such a member constructs the new thread first (`Control.create`), then waits for
  the thread the member owned before (`Control.assign`). `request_stop` has no effect, as the loops
  never look at their `stop_token`.
* A worker may throw at any step: the `catch` blocks of the thread functions clear
  `m_client_running` and the thread ends (`Move.crash`).
* Members are destroyed in the reverse order of their declaration. The counters come first and take
  no time, then `p_market_feed`, then the threads. `p_config` is never null, and left out with
  the server side.
-/

namespace Mms

open Lib

/-- Where `_network_loop` stands. -/
inductive NetworkPc where
  /-- `if (!p_market_feed)`. -/
  | enter
  /-- `m_client_running.store(false)`, when there is no feed. -/
  | noFeed
  /-- `p_market_feed->receive_loop(m_client_running)`. -/
  | loop (pc : ReceivePc)
  | exited
deriving DecidableEq

/-- A worker thread. -/
inductive Thread where
  | network (pc : NetworkPc)
  | strategy (pc : StrategyPc)
  | execution (pc : ExecutionPc)
deriving DecidableEq

namespace Thread

/-- A thread before its first step. -/
def new : Role → Thread
  | .network => .network .enter
  | .strategy => .strategy .test
  | .execution => .execution .test

def role : Thread → Role
  | .network _ => .network
  | .strategy _ => .strategy
  | .execution _ => .execution

/-- The thread has not left its loop. -/
def live : Thread → Bool
  | .network .exited | .network (.loop .exited) | .strategy .exited | .execution .exited => false
  | _ => true

/-- The thread when it has thrown. -/
def exit : Thread → Thread
  | .network _ => .network .exited
  | .strategy _ => .strategy .exited
  | .execution _ => .execution .exited

variable {N M : ℕ}

/-- A step of a thread; `marketFeed` is whether `p_market_feed` is set. -/
def next (decode : Packet → MarketData) (env : Answers) (marketFeed : Bool) :
    Thread → Shared N M → Act × Thread × Shared N M
  | .network .enter, s => (.tau, .network (if marketFeed then .loop .test else .noFeed), s)
  | .network .noFeed, s => (.tau, .network .exited, { s with clientRunning := false })
  | .network (.loop pc), s =>
    let (act, pc, s) := receiveNext decode env pc s
    (act, .network (.loop pc), s)
  | .network .exited, s => (.tau, .network .exited, s)
  | .strategy pc, s =>
    let (act, pc, s) := strategyNext env pc s
    (act, .strategy pc, s)
  | .execution pc, s =>
    let (act, pc, s) := executionNext env pc s
    (act, .execution pc, s)

@[simp] theorem role_new (role : Role) : (new role).role = role := by cases role <;> rfl

@[simp] theorem live_new (role : Role) : (new role).live = true := by cases role <;> rfl

@[simp] theorem role_exit (t : Thread) : t.exit.role = t.role := by cases t <;> rfl

@[simp] theorem live_exit (t : Thread) : t.exit.live = false := by cases t <;> rfl

@[simp] theorem role_next (decode : Packet → MarketData) (env : Answers) (marketFeed : Bool)
    (t : Thread) (s : Shared N M) : (t.next decode env marketFeed s).2.1.role = t.role := by
  unfold next
  split <;> rfl

/-- No worker sets `m_client_running`. -/
theorem running_next (decode : Packet → MarketData) (env : Answers) (marketFeed : Bool)
    (t : Thread) (s : Shared N M) :
    (t.next decode env marketFeed s).2.2.clientRunning = true → s.clientRunning = true := by
  unfold next
  split
  · exact id
  · exact fun h => absurd h (by simp)
  · rename_i pc
    exact (receiveNext_frame decode env pc s).2.2.2
  · exact id
  · rename_i pc
    rw [(strategyNext_frame env pc s).1]
    exact id
  · rename_i pc
    rw [(executionNext_frame env pc s).1]
    exact id

end Thread

/-- Where the controlling thread stands. -/
inductive Control where
  /-- Between calls. -/
  | idle
  /-- `initialize_client`, called from outside. -/
  | initClient
  /-- `work_client`: `if (is_client_running())`. -/
  | workTest
  /-- `if (!is_client_initialized())`, with the call of `initialize_client`. -/
  | workInit
  /-- `m_client_running.store(true)`. -/
  | setRunning
  /-- `m_client_stopping.store(false)`. -/
  | clearStopping
  /-- `m_client_stopped.store(false)`. -/
  | clearStopped
  /-- The construction of a `std::jthread`. -/
  | create (role : Role)
  /-- Its assignment to the member: the thread the member owned is joined first. -/
  | assign (role : Role) (t : ℕ)
  /-- `stop_client`, called from outside or by the destructor: `if (is_client_stopped())`. -/
  | stopTest (dtor : Bool)
  /-- `m_client_stopping.store(true)`. -/
  | setStopping (dtor : Bool)
  /-- `m_client_running.store(false)`. -/
  | clearRunning (dtor : Bool)
  /-- `m_client_stopped.store(true)`. -/
  | setStopped (dtor : Bool)
  /-- The destructor of `p_market_feed`. -/
  | destroyFeed
  /-- The destructor of a thread member: it joins. -/
  | destroyThread (role : Role)
  | destroyed
deriving DecidableEq

/-- `Core`, its worker threads, and where the controlling thread stands. -/
structure Core (N M : ℕ) where
  shared : Shared N M
  /-- Whether `p_market_feed` is set. -/
  marketFeed : Bool
  clientStarted : Bool
  clientStopping : Bool
  clientStopped : Bool
  threads : List Thread
  jthread : Role → Option ℕ
  control : Control

namespace Core

variable {N M : ℕ}

/-- The calls of the controlling thread. -/
inductive Call where
  | initializeClient
  | workClient
  | stopClient
  | destructor
deriving DecidableEq

/-- The first statement of a call. -/
def Call.entry : Call → Control
  | .initializeClient => .initClient
  | .workClient => .workTest
  | .stopClient => .stopTest false
  | .destructor => .stopTest true

/-- What happens. -/
inductive Label where
  | worker (t : ℕ) (role : Role) (act : Act)
  | crash (t : ℕ) (role : Role)
  /-- A call begins. -/
  | call (c : Call)
  /-- `work_client` sets `m_client_running`, when so many threads have been started. -/
  | begins (threads : ℕ)
  | started (t : ℕ) (role : Role)
  /-- The construction of the thread threw, and the exception leaves `work_client`. -/
  | threw (role : Role)
  | returned (c : Call) (error : Option CoreError)
  | feedDestroyed
  /-- Another statement of the controlling thread. -/
  | tau
deriving DecidableEq

/-- What the scheduler chooses: a worker that steps or throws, a call, or the next statement of the
controlling thread, with whether the connection or the construction of the thread succeeds. -/
inductive Move where
  | worker (t : ℕ) (env : Answers)
  | crash (t : ℕ)
  | call (c : Call)
  | go (ok : Bool)

/-- The constructor. `s_order_id_counter` is static and may have counted before. -/
def new (orderIdCounter : UInt64) : Core N M where
  shared := ⟨false, Fifo.empty, Fifo.empty, MarketFeed.new, 0, 0, orderIdCounter⟩
  marketFeed := false
  clientStarted := false
  clientStopping := false
  clientStopped := false
  threads := []
  jthread _ := none
  control := .idle

/-- `initialize_client`: `none` on success. -/
def initializeClient (connected : Bool) (c : Core N M) : Option CoreError × Core N M :=
  if c.clientStarted then (none, c)
  else
    let (error, feed) := MarketFeed.new.initializeFeed connected
    match error with
    | some error => (some error, { c with marketFeed := false, clientStarted := false })
    | none =>
      (none, { c with
        shared := { c.shared with feed := feed }, marketFeed := true, clientStarted := true })

/-- The thread a member owns, if any, has ended: `join` returns. -/
def joined (c : Core N M) (role : Role) : Bool :=
  match (c.jthread role).bind fun t => c.threads[t]? with
  | some thread => !thread.live
  | none => true

/-- What follows in `work_client` on the start of a thread. -/
def afterStart : Role → Label × Control
  | .network => (.tau, .create .strategy)
  | .strategy => (.tau, .create .execution)
  | .execution => (.returned .workClient none, .idle)

/-- What follows on `stop_client`. -/
def afterStop (dtor : Bool) : Label × Control :=
  if dtor then (.tau, .destroyFeed) else (.returned .stopClient none, .idle)

/-- What follows on the destruction of a thread member. -/
def afterJoin : Role → Control
  | .execution => .destroyThread .strategy
  | .strategy => .destroyThread .network
  | .network => .destroyed

/-- The next statement of the controlling thread. -/
def go (ok : Bool) (c : Core N M) : Option (Label × Core N M) :=
  match c.control with
  | .idle => none
  | .initClient =>
    let (error, c) := c.initializeClient ok
    some (.returned .initializeClient error, { c with control := .idle })
  | .workTest =>
    if c.shared.clientRunning then some (.returned .workClient none, { c with control := .idle })
    else some (.tau, { c with control := .workInit })
  | .workInit =>
    let (error, c) := c.initializeClient ok
    match error with
    | some error => some (.returned .workClient (some error), { c with control := .idle })
    | none => some (.tau, { c with control := .setRunning })
  | .setRunning =>
    some (.begins c.threads.length,
      { c with shared := { c.shared with clientRunning := true }, control := .clearStopping })
  | .clearStopping => some (.tau, { c with clientStopping := false, control := .clearStopped })
  | .clearStopped => some (.tau, { c with clientStopped := false, control := .create .network })
  | .create role =>
    if ok then
      some (.started c.threads.length role,
        { c with
          threads := c.threads ++ [Thread.new role], control := .assign role c.threads.length })
    else some (.threw role, { c with control := .idle })
  | .assign role t =>
    if c.joined role then
      let (label, control) := afterStart role
      some (label,
        { c with jthread := Function.update c.jthread role (some t), control := control })
    else none
  | .stopTest dtor =>
    if c.clientStopped then
      let (label, control) := afterStop dtor
      some (label, { c with control := control })
    else some (.tau, { c with control := .setStopping dtor })
  | .setStopping dtor =>
    some (.tau, { c with clientStopping := true, control := .clearRunning dtor })
  | .clearRunning dtor =>
    some (.tau,
      { c with shared := { c.shared with clientRunning := false }, control := .setStopped dtor })
  | .setStopped dtor =>
    let (label, control) := afterStop dtor
    some (label, { c with clientStopped := true, control := control })
  | .destroyFeed =>
    -- `~MarketFeed` calls `stop`
    some (.feedDestroyed,
      { c with
        shared := { c.shared with feed := c.shared.feed.disconnect }
        control := .destroyThread .execution })
  | .destroyThread role =>
    if c.joined role then some (.tau, { c with control := afterJoin role }) else none
  | .destroyed => none

/-- A step of the whole. -/
def next (decode : Packet → MarketData) : Move → Core N M → Option (Label × Core N M)
  | .worker t env, c =>
    match c.threads[t]? with
    | some thread =>
      if thread.live then
        let (act, thread', shared) := thread.next decode env c.marketFeed c.shared
        some (.worker t thread.role act,
          { c with threads := c.threads.set t thread', shared := shared })
      else none
    | none => none
  | .crash t, c =>
    match c.threads[t]? with
    | some thread =>
      if thread.live then
        some (.crash t thread.role,
          { c with
            threads := c.threads.set t thread.exit
            shared := { c.shared with clientRunning := false } })
      else none
    | none => none
  | .call call, c =>
    if c.control = .idle then some (.call call, { c with control := call.entry }) else none
  | .go ok, c => c.go ok

/-- The runs of a `Core`. -/
def core (N M : ℕ) (decode : Packet → MarketData) : LTS (Core N M) Label :=
  LTS.ofNext (fun c => ∃ orderIdCounter, c = new orderIdCounter) (next decode)

end Core

end Mms
