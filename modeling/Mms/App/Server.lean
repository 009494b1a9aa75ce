import Mathlib.Tactic.NormNum
import Mms.App.Loops
import Mms.Lib.Framing

/-!
# The server (`src/mms/app/Core.cc`)

`Core::generate_market_data`, `Core::initialize_server` and `Core::work_server`. The loop of
`work_server` is a program counter and a next-state function, as the loops of the client are; what
`fiah::TcpServer` answers and what the distributions draw are arguments (`ServerAnswers`).

* `Layout` is how a `MarketData` lies in memory and how the sum of two doubles is rounded. A tick
  that was made of doubles is read back from its bytes.
* `generateMarketData_ticked`: what the `n`-th tick is.
* `serverNext_cases`: what a step of the server does.

Logging, timers and `sleep_for` are left out. `p_config` is set by the only constructor and never
reset, so the checks for its absence are left out too.
-/

namespace Mms

open Lib

/-- The doubles among the rationals, and how a `MarketData` of doubles lies in memory. -/
structure Layout where
  Double : ℚ → Prop
  round : ℚ → ℚ
  encode : MarketData → Packet
  decode : Packet → MarketData
  double_round : ∀ q, Double (round q)
  decode_encode : ∀ md, Double md.bid → Double md.ask → decode (encode md) = md

variable {L : Layout}

/-! ### Prices in cents -/

/-- The whole cents of a price. -/
def cents (price : ℚ) : ℕ := (price * 100).floor.toNat % 2 ^ 64

/-- The fields of a `MarketData` in memory, where a price is a number of cents. -/
def fields (md : MarketData) : List (List UInt8) :=
  [beBytes 8 md.seqNum.toNat, beBytes 8 (cents md.bid), beBytes 8 (cents md.ask),
    beBytes 8 md.timestampNs.toNat, md.symbol.toList]

theorem fields_length (md : MarketData) : ∀ f ∈ fields md, f.length = 8 := by
  simp [fields]

theorem cents_lt (price : ℚ) : cents price < 2 ^ 64 := Nat.mod_lt _ (Nat.two_pow_pos 64)

theorem cents_div {n : ℕ} (hn : n < 2 ^ 64) : cents ((n : ℚ) / 100) = n := by
  have hfloor : (n : ℚ) / 100 * 100 = n := div_mul_cancel₀ _ (by norm_num)
  rw [cents, hfloor, ← Rat.intCast_natCast, Rat.floor_intCast, Int.toNat_natCast,
    Nat.mod_eq_of_lt hn]

/-- The field at each place of the memory. -/
theorem slice_fields (md : MarketData) {k : ℕ} (hk : k < 5) :
    slice (fields md).flatten (k * 8) 8 = ((fields md)[k]?).getD [] := by
  have hlt : k < (fields md).length := hk
  rw [slice_records (fields_length md) hlt, List.getElem?_eq_getElem hlt]
  rfl

/-- The layout of a machine whose prices are whole cents. -/
def Layout.cents : Layout where
  Double q := ∃ n : ℕ, n < 2 ^ 64 ∧ q = (n : ℚ) / 100
  round q := (Mms.cents q : ℚ) / 100
  encode md := ⟨(fields md).flatten.toArray, by simp [fields, MarketData.size]⟩
  decode p :=
    let field k := slice p.toList (k * 8) 8
    ⟨UInt64.ofNat (beNat (field 0)), (beNat (field 1) : ℚ) / 100, (beNat (field 2) : ℚ) / 100,
      UInt64.ofNat (beNat (field 3)), Vector.ofFn fun i => (field 4).getD i 0⟩
  double_round q := ⟨_, cents_lt q, rfl⟩
  decode_encode md hb ha := by
    obtain ⟨b, hb, hbid⟩ := hb
    obtain ⟨a, ha, hask⟩ := ha
    have h0 : slice (fields md).flatten (0 * 8) 8 = beBytes 8 md.seqNum.toNat :=
      slice_fields md (by decide)
    have h1 : slice (fields md).flatten (1 * 8) 8 = beBytes 8 (Mms.cents md.bid) :=
      slice_fields md (by decide)
    have h2 : slice (fields md).flatten (2 * 8) 8 = beBytes 8 (Mms.cents md.ask) :=
      slice_fields md (by decide)
    have h3 : slice (fields md).flatten (3 * 8) 8 = beBytes 8 md.timestampNs.toNat :=
      slice_fields md (by decide)
    have h4 : slice (fields md).flatten (4 * 8) 8 = md.symbol.toList :=
      slice_fields md (by decide)
    have hword : ∀ n < 2 ^ 64, beNat (beBytes 8 n) = n := fun n hn => beNat_beBytes hn
    have hsymbol : (Vector.ofFn fun i : Fin 8 => md.symbol.toList.getD i 0) = md.symbol := by
      ext i hi
      simp
    rw [hbid, cents_div hb] at h1
    rw [hask, cents_div ha] at h2
    simp only [Vector.toList_mk, h0, h1, h2, h3, h4, hword b hb, hword a ha,
      hword _ (UInt64.toNat_lt _), UInt64.ofNat_toNat, hsymbol, ← hbid, ← hask]

/-! ## `generate_market_data` -/

/-- What `price_dist` and `spread_dist` draw. -/
structure TickDraws (L : Layout) where
  bid : ℚ
  spread : ℚ
  double : L.Double bid
  price : 189.95 ≤ bid ∧ bid < 190.05
  tight : 0.01 ≤ spread ∧ spread < 0.05

/-- `std::strncpy(md.symbol, symbol.c_str(), 7)` into a zeroed array, and the last byte zeroed. -/
def symbolOf (symbol : List UInt8) : Vector UInt8 8 :=
  Vector.ofFn fun i => if i.val < 7 then (symbol.takeWhile (· != 0)).getD i 0 else 0

/-- `generate_market_data`: the tick and `tick_counter` after it. -/
def generateMarketData (symbol : List UInt8) (draws : TickDraws L) (tickCounter : UInt64) :
    MarketData × UInt64 :=
  let tickId := tickCounter
  let md : MarketData :=
    { seqNum := tickId
      bid := draws.bid
      ask := L.round (draws.bid + draws.spread)
      timestampNs := tickId
      symbol := symbolOf symbol }
  (md, tickCounter + 1)

/-- `"AAPL"`. -/
def aapl : List UInt8 := [65, 65, 80, 76]

/-- What every tick of the server is, whatever was drawn; `n` counts the ticks before it. -/
structure Ticked (L : Layout) (n : ℕ) (md : MarketData) : Prop where
  seqNum : md.seqNum = UInt64.ofNat n
  timestampNs : md.timestampNs = md.seqNum
  symbol : md.symbol = symbolOf aapl
  bid : 189.95 ≤ md.bid ∧ md.bid < 190.05
  ask : ∃ spread, 0.01 ≤ spread ∧ spread < 0.05 ∧ md.ask = L.round (md.bid + spread)
  double : L.Double md.bid

theorem generateMarketData_ticked (draws : TickDraws L) (n : ℕ) :
    Ticked L n (generateMarketData aapl draws (UInt64.ofNat n)).1 where
  seqNum := rfl
  timestampNs := rfl
  symbol := rfl
  bid := draws.price
  ask := ⟨draws.spread, draws.tight.1, draws.tight.2, rfl⟩
  double := draws.double

/-- A tick of the server survives the copy into and out of its bytes. -/
theorem Ticked.decode_encode {n : ℕ} {md : MarketData} (h : Ticked L n md) :
    L.decode (L.encode md) = md := by
  obtain ⟨spread, -, -, ha⟩ := h.ask
  exact L.decode_encode md h.double (ha ▸ L.double_round _)

/-! ## `initialize_server` and `work_server` -/

/-- The members of `Core` that the server uses, and `tick_counter`. -/
structure Server where
  serverStarted : Bool
  tcpServer : Bool
  tickCounter : UInt64
deriving DecidableEq

/-- The server as constructed. -/
def Server.new : Server := ⟨false, false, 0⟩

/-- `initialize_server`, where `started` is whether `TcpServer::start` succeeds; `none` on
success. -/
def Server.initializeServer (started : Bool) (server : Server) : Option CoreError × Server :=
  if server.serverStarted then (none, server)
  else if started then (none, { server with serverStarted := true, tcpServer := true })
  -- the server that could not be started stays in `p_tcp_server`
  else (some .initServerFail, { server with tcpServer := true })

/-- Where `work_server` stands. -/
inductive ServerPc where
  /-- `if (!is_server_initialized())`. -/
  | start
  /-- `if (!p_tcp_server)`. -/
  | check
  /-- `p_tcp_server->accept_client()`. -/
  | accept
  /-- `if (client_socket.value() < 1)`. -/
  | loop (fd : Int)
  /-- `generate_market_data("AAPL")`. -/
  | generate (fd : Int)
  /-- `p_tcp_server->send(...)`. -/
  | send (fd : Int) (tick : MarketData)
  /-- `return std::unexpected(result.error())`. -/
  | returned (error : CoreError)
  /-- `throw mms::CoreException(...)`. -/
  | threw (error : CoreError)
deriving DecidableEq

/-- What the environment answers to a step of the server. -/
structure ServerAnswers (L : Layout) where
  started : Bool
  /-- `accept_client`: an error, after which the connection may be gone, or a descriptor. -/
  accept : Except Bool Int
  draws : TickDraws L
  /-- `send`: an error after so many bytes were stored, or all bytes. -/
  send : Except (Fin MarketData.size) Unit

/-- What a step of the server does. -/
inductive ServerAct where
  | tau
  | accepted (fd : Int)
  | acceptFailed (gone : Bool)
  | generated (tick : MarketData)
  | sent (tick : MarketData)
  | sendFailed (tick : MarketData) (stored : Fin MarketData.size)
deriving DecidableEq

/-- A step of `work_server`. -/
def serverNext (env : ServerAnswers L) : ServerPc → Server → ServerAct × ServerPc × Server
  | .start, s =>
    if s.serverStarted then (.tau, .check, s)
    else
      let (error, s) := s.initializeServer env.started
      (.tau, match error with
        | some error => .returned error
        | none => .check, s)
  | .check, s => (.tau, if s.tcpServer then .accept else .threw .invalidState, s)
  | .accept, s =>
    match env.accept with
    | .error gone => (.acceptFailed gone, .accept, s)
    | .ok fd => (.accepted fd, .loop fd, s)
  -- a descriptor below 1 ends the loop; the connection is not closed
  | .loop fd, s => (.tau, if fd < 1 then .accept else .generate fd, s)
  | .generate fd, s =>
    let (tick, tickCounter) := generateMarketData aapl env.draws s.tickCounter
    (.generated tick, .send fd tick, { s with tickCounter := tickCounter })
  | .send fd tick, s =>
    match env.send with
    | .ok () => (.sent tick, .loop fd, s)
    | .error stored => (.sendFailed tick stored, .accept, s)
  | .returned error, s => (.tau, .returned error, s)
  | .threw error, s => (.tau, .threw error, s)

/-- The server is in the loop over one connection. -/
def ServerPc.Serving : ServerPc → Prop
  | .loop _ | .generate _ | .send _ _ => True
  | _ => False

/-- The tick the server has generated and not sent yet. -/
def ServerPc.hand : ServerPc → List MarketData
  | .send _ tick => [tick]
  | _ => []

/-- **Every step of `work_server`**, by what it does. -/
inductive ServerStep (L : Layout) (pc : ServerPc) (s : Server) :
    ServerAct → ServerPc → Server → Prop
  /-- Nothing happens to a connection, and none is taken into service. -/
  | tau {pc' : ServerPc} {s' : Server} (hcounter : s'.tickCounter = s.tickCounter)
      (hhand : pc.hand = [] ∧ pc'.hand = []) (hserve : pc'.Serving → pc.Serving) :
      ServerStep L pc s .tau pc' s'
  | accepted (fd : Int) (hpc : pc = .accept) : ServerStep L pc s (.accepted fd) (.loop fd) s
  | acceptFailed (gone : Bool) (hpc : pc = .accept) :
      ServerStep L pc s (.acceptFailed gone) .accept s
  | generated (fd : Int) (draws : TickDraws L) (hpc : pc = .generate fd) :
      ServerStep L pc s (.generated (generateMarketData aapl draws s.tickCounter).1)
        (.send fd (generateMarketData aapl draws s.tickCounter).1)
        { s with tickCounter := s.tickCounter + 1 }
  | sent (fd : Int) (tick : MarketData) (hpc : pc = .send fd tick) :
      ServerStep L pc s (.sent tick) (.loop fd) s
  | sendFailed (fd : Int) (tick : MarketData) (stored : Fin MarketData.size)
      (hpc : pc = .send fd tick) : ServerStep L pc s (.sendFailed tick stored) .accept s

theorem serverNext_cases (env : ServerAnswers L) (pc : ServerPc) (s : Server) :
    ServerStep L pc s (serverNext env pc s).1 (serverNext env pc s).2.1
      (serverNext env pc s).2.2 := by
  cases pc with
  | start =>
    simp only [serverNext, Server.initializeServer]
    cases s.serverStarted with
    | true => exact .tau rfl ⟨rfl, rfl⟩ id
    | false => cases env.started <;> exact .tau rfl ⟨rfl, rfl⟩ id
  | check =>
    simp only [serverNext]
    split <;> exact .tau rfl ⟨rfl, rfl⟩ id
  | accept =>
    simp only [serverNext]
    split
    · exact .acceptFailed _ rfl
    · exact .accepted _ rfl
  | loop fd =>
    simp only [serverNext]
    split
    · exact .tau rfl ⟨rfl, rfl⟩ fun _ => trivial
    · exact .tau rfl ⟨rfl, rfl⟩ fun _ => trivial
  | generate fd => exact .generated fd env.draws rfl
  | send fd tick =>
    simp only [serverNext]
    split
    · exact .sent fd tick rfl
    · exact .sendFailed fd tick _ rfl
  | returned error => exact .tau rfl ⟨rfl, rfl⟩ id
  | threw error => exact .tau rfl ⟨rfl, rfl⟩ id

/-- The server flagged as started has its `p_tcp_server`; wherever `work_server` is past its start
and has not returned, it is flagged; and it has not thrown. -/
structure Server.Listens (pc : ServerPc) (s : Server) : Prop where
  server : s.serverStarted = true → s.tcpServer = true
  started : pc = .check ∨ pc = .accept ∨ pc.Serving → s.serverStarted = true
  threw : ∀ error, pc ≠ .threw error

/-- So the check of `p_tcp_server`, which throws, always passes. -/
theorem Server.Listens.next {pc : ServerPc} {s : Server} (h : Server.Listens pc s)
    (env : ServerAnswers L) :
    Server.Listens (serverNext env pc s).2.1 (serverNext env pc s).2.2 := by
  obtain ⟨hserver, hstarted, hthrew⟩ := h
  cases pc with
  | start =>
    simp only [serverNext, Server.initializeServer]
    cases hs : s.serverStarted with
    | true => exact ⟨hserver, fun _ => hs, by simp⟩
    | false =>
      cases env.started with
      | false => exact ⟨by simp, by simp [ServerPc.Serving], by simp⟩
      | true => exact ⟨fun _ => rfl, fun _ => rfl, by simp⟩
  | check =>
    have hs := hstarted (Or.inl rfl)
    simp only [serverNext, hserver hs, if_true]
    exact ⟨hserver, fun _ => hs, by simp⟩
  | accept =>
    have hs := hstarted (Or.inr (Or.inl rfl))
    simp only [serverNext]
    split <;> exact ⟨hserver, fun _ => hs, by simp⟩
  | loop fd =>
    have hs := hstarted (Or.inr (Or.inr trivial))
    simp only [serverNext]
    split <;> exact ⟨hserver, fun _ => hs, by simp⟩
  | generate fd =>
    exact ⟨hserver, fun _ => hstarted (Or.inr (Or.inr trivial)), by simp [serverNext]⟩
  | send fd tick =>
    have hs := hstarted (Or.inr (Or.inr trivial))
    simp only [serverNext]
    split <;> exact ⟨hserver, fun _ => hs, by simp⟩
  | returned error => exact ⟨hserver, hstarted, hthrew⟩
  | threw error => exact absurd rfl (hthrew error)

end Mms
