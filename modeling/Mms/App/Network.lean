import Mms.App.Framing
import Mms.App.Orders
import Mms.App.Server
import Mms.Lib.Levels

/-!
# The server and a client on one network

`work_server` on one side, the three loops of one client on the other, and between them the
connections: those of this client, which reconnects whenever `recv` fails, and those of any others.
The server takes the connections in the order they were made and serves one at a time.

A connection carries bytes. `send` stores the bytes of a tick, or fails after a part of them; `recv`
gets as many of the bytes stored as the network likes, at most `sizeof(MarketData)`.

* `client_run`: the client's part of a run is a run of its pipeline.
* `served_run`: what the server does to the connections, in every run of the system.
* `server_ledger`: every tick generated is accounted for.
-/

namespace Mms

open Lib

/-! ## The connections -/

/-- A connection: the ticks sent on it, the bytes of one that could not be sent whole, and how many
bytes of all were received. -/
structure Connection where
  sent : List MarketData
  cut : List UInt8
  read : ℕ

namespace Connection

def new : Connection := ⟨[], [], 0⟩

/-- The bytes stored on the connection. -/
def stream (L : Layout) (c : Connection) : List UInt8 :=
  (c.sent.map fun md => (L.encode md).toList).flatten ++ c.cut

/-- What `recv` stores in the buffer when the network has `n` bytes ready. -/
def recv (L : Layout) (n : ℕ) (c : Connection) : List UInt8 :=
  slice (c.stream L) c.read (min n MarketData.size)

end Connection

/-- The connections to the server, in the order they were made. -/
structure Network where
  connections : List Connection
  /-- How many of them `accept_client` has taken. -/
  accepted : ℕ
  /-- The one of the client's `p_tcp_client`. -/
  client : Option ℕ

namespace Network

def empty : Network := ⟨[], 0, none⟩

/-- The connection the server serves, if it serves one: the last it has taken. -/
def serving (net : Network) : ℕ := net.accepted - 1

/-- Somebody connects. -/
def connect (net : Network) : Network :=
  { net with connections := net.connections ++ [.new] }

/-- The client connects. -/
def connectClient (net : Network) : Network :=
  { net.connect with client := some net.connections.length }

/-- What the client's `recv` stores in the buffer. -/
def recv (L : Layout) (n : ℕ) (net : Network) : List UInt8 :=
  ((net.client.bind (net.connections[·]?)).map (Connection.recv L n)).getD []

/-- How many bytes the client has received on its connection. -/
def position (net : Network) : ℕ :=
  ((net.client.bind (net.connections[·]?)).map Connection.read).getD 0

def modify (net : Network) (k : ℕ) (f : Connection → Connection) : Network :=
  { net with connections := net.connections.modify k f }

/-- What a step of the server does to the connections; it cannot take one that is not there. -/
def afterServer (L : Layout) (net : Network) : ServerAct → Option Network
  | .accepted _ | .acceptFailed true =>
    if net.accepted < net.connections.length then some { net with accepted := net.accepted + 1 }
    else none
  | .sent tick => some (net.modify net.serving fun c => { c with sent := c.sent ++ [tick] })
  | .sendFailed tick stored =>
    some (net.modify net.serving fun c => { c with cut := (L.encode tick).toList.take stored })
  | .tau | .acceptFailed false | .generated _ => some net

/-- What a step of the client does to the connections. -/
def afterClient (net : Network) : Pipeline.Label → Network
  | .thread .network (.connect true) => net.connectClient
  | .thread .network (.recv (some bytes)) =>
    match net.client with
    | some k => net.modify k fun c => { c with read := c.read + bytes.length }
    | none => net
  | _ => net

end Network

/-! ## The system -/

/-- A server, a client, and the connections. -/
structure System (N M : ℕ) where
  serverPc : ServerPc
  server : Server
  network : Network
  /-- `m_client_started`: the client's first connection was made, its loops run. -/
  clientStarted : Bool
  client : Pipeline N M

namespace System

variable {L : Layout} {N M : ℕ}

/-- What happens in the system. -/
inductive Label where
  /-- A step of the server, with the connection it serves. -/
  | server (serving : ℕ) (act : ServerAct)
  /-- Somebody else connects. -/
  | connect
  /-- `initialize_client`, and the start of the loops if it succeeds. -/
  | start (connected : Bool)
  | client (label : Pipeline.Label)

/-- What the scheduler and the network choose. -/
inductive Move (L : Layout) where
  | server (env : ServerAnswers L)
  | connect
  | start (connected : Bool)
  /-- A loop of the client steps; if it receives, the network has so many bytes ready or fails. -/
  | client (role : Role) (env : Answers) (ready : Option ℕ)
  | stop

/-- `work_client` of a client whose loops do not run yet: `initialize_client`, and their start. -/
def workClient (connected : Bool) (s : System N M) : System N M :=
  let (error, feed) := MarketFeed.new.initializeFeed connected
  if error.isNone then
    { s with
      network := s.network.connectClient
      clientStarted := true
      client := { s.client with
        shared := { s.client.shared with feed := feed, clientRunning := true } } }
  else s

/-- A step of the system. Nobody connects to a server that does not listen. -/
def next (L : Layout) : Move L → System N M → Option (Label × System N M)
  | .server env, s =>
    let (act, pc, server) := serverNext env s.serverPc s.server
    (s.network.afterServer L act).map fun net =>
      (.server s.network.serving act, { s with serverPc := pc, server := server, network := net })
  | .connect, s =>
    if s.server.serverStarted then some (.connect, { s with network := s.network.connect })
    else none
  | .start connected, s =>
    let connected := connected && s.server.serverStarted
    if s.clientStarted then none else some (.start connected, s.workClient connected)
  | .client role env ready, s =>
    let env := { env with
      recv := ready.map fun n => s.network.recv L n
      connected := env.connected && s.server.serverStarted }
    if s.clientStarted then
      (Pipeline.next L.decode (.thread role env) s.client).map fun (label, p) =>
        (.client label, { s with network := s.network.afterClient label, client := p })
    else none
  | .stop, s =>
    if s.clientStarted then
      (Pipeline.next L.decode .stop s.client).map fun (label, p) =>
        (.client label, { s with client := p })
    else none

/-- Nothing has happened yet. -/
def Fresh (s : System N M) : Prop :=
  s.serverPc = .start ∧ s.server = .new ∧ s.network = .empty ∧ s.clientStarted = false ∧
    s.client.Started

/-- The runs of the system. -/
def system (N M : ℕ) (L : Layout) : LTS (System N M) Label := LTS.ofNext Fresh (next L)

/-! ## What a history says -/

/-- The ticks the server generates, with the connection each is for. -/
def served : Label → Option (ℕ × MarketData)
  | .server k (.generated md) => some (k, md)
  | _ => none

/-- The ticks the server generates. -/
def generated (h : List Label) : List MarketData := (LTS.seen served h).map Prod.snd

/-- The steps of the client's loops. -/
def clientSteps (h : List Label) : List Pipeline.Label :=
  h.filterMap fun
    | .client label => some label
    | _ => none

/-- The connections the client makes. -/
def clientConnects : Label → Option Unit
  | .start true | .client (.thread .network (.connect true)) => some ()
  | _ => none

/-- The bytes a successful `recv` of the client returns. -/
def bytesRead : Label → Option (List UInt8)
  | .client (.thread .network (.recv result)) => result
  | _ => none

/-- A read of the size of a `MarketData` starts where a record starts. -/
def Aligned (s : System N M) (e : Label) : Prop :=
  ∀ bytes ∈ bytesRead e, bytes.length = MarketData.size → MarketData.size ∣ s.network.position

/-- A read gets a record or nothing. -/
def Whole (_ : System N M) (e : Label) : Prop :=
  ∀ bytes ∈ bytesRead e, bytes = [] ∨ bytes.length = MarketData.size

instance (s : System N M) (e : Label) : Decidable (Aligned s e) :=
  Option.decidableForallMem _

instance (s : System N M) (e : Label) : Decidable (Whole s e) :=
  Option.decidableForallMem _

variable {h : List Label} {s s' : System N M} {e : Label}

/-! ## One step -/

/-- **Every step of the system.** -/
inductive Step (L : Layout) (s : System N M) : Label → System N M → Prop
  | server (env : ServerAnswers L) {net : Network}
      (hnet : s.network.afterServer L (serverNext env s.serverPc s.server).1 = some net) :
      Step L s (.server s.network.serving (serverNext env s.serverPc s.server).1)
        { s with
          serverPc := (serverNext env s.serverPc s.server).2.1
          server := (serverNext env s.serverPc s.server).2.2
          network := net }
  | connect : Step L s .connect { s with network := s.network.connect }
  | refused : Step L s (.start false) s
  | start (hnot : s.clientStarted = false) :
      Step L s (.start true)
        { s with
          network := s.network.connectClient
          clientStarted := true
          client := { s.client with
            shared := { s.client.shared with feed := ⟨true, true, 0, 0⟩, clientRunning := true } } }
  | client {label : Pipeline.Label} {p : Pipeline N M} (hstarted : s.clientStarted = true)
      (hstep : (Pipeline.pipeline N M L.decode).step s.client label p)
      (hrecv : ∀ bytes, label = .thread .network (.recv (some bytes)) →
        ∃ n, bytes = s.network.recv L n) :
      Step L s (.client label)
        { s with network := s.network.afterClient label, client := p }

/-- What `receive_loop` receives is what the environment answers. -/
theorem receiveNext_recv {decode : Packet → MarketData} {env : Answers} {pc : ReceivePc}
    {sh : Shared N M} {r : Option (List UInt8)}
    (h : (receiveNext decode env pc sh).1 = .recv r) : r = env.recv := by
  unfold receiveNext at h
  split at h <;> (try split at h) <;> simp_all

theorem next_cases {m : Move L} (hs : next L m s = some (e, s')) : Step L s e s' := by
  cases m with
  | server env =>
    obtain ⟨net, hnet, he⟩ := Option.map_eq_some_iff.mp hs
    obtain ⟨rfl, rfl⟩ := Prod.mk.inj he
    exact .server env hnet
  | connect =>
    simp only [next] at hs
    split at hs
    · simp only [Option.some.injEq, Prod.mk.injEq] at hs
      obtain ⟨rfl, rfl⟩ := hs
      exact .connect
    · exact absurd hs (by simp)
  | start connected =>
    simp only [next] at hs
    split at hs
    · exact absurd hs (by simp)
    · rename_i hnot
      simp only [Option.some.injEq, Prod.mk.injEq] at hs
      obtain ⟨rfl, rfl⟩ := hs
      cases connected && s.server.serverStarted with
      | false => exact .refused
      | true => exact .start (by simpa using hnot)
  | client role env ready =>
    simp only [next] at hs
    split at hs
    · rename_i hstarted
      obtain ⟨⟨label, p⟩, hp, he⟩ := Option.map_eq_some_iff.mp hs
      obtain ⟨rfl, rfl⟩ := Prod.mk.inj he
      refine .client hstarted ⟨_, hp⟩ fun bytes hb => ?_
      subst hb
      cases role with
      | network =>
        simp only [Pipeline.next, Option.some.injEq, Prod.mk.injEq, Pipeline.Label.thread.injEq,
          true_and] at hp
        have hr := receiveNext_recv hp.1
        cases ready with
        | none => exact absurd hr (by simp)
        | some n => exact ⟨n, Option.some.inj hr⟩
      | strategy | execution => simp [Pipeline.next] at hp
    · exact absurd hs (by simp)
  | stop =>
    simp only [next] at hs
    split at hs
    · rename_i hstarted
      obtain ⟨⟨label, p⟩, hp, he⟩ := Option.map_eq_some_iff.mp hs
      obtain ⟨rfl, rfl⟩ := Prod.mk.inj he
      obtain ⟨rfl, -⟩ : Pipeline.Label.stop = label ∧ _ = p := by
        simpa only [Pipeline.next, Option.some.injEq, Prod.mk.injEq] using hp
      have hstep : Step L s (.client .stop)
          { s with network := s.network.afterClient .stop, client := p } :=
        .client hstarted ⟨.stop, hp⟩ fun bytes hb => by simp at hb
      exact hstep
    · exact absurd hs (by simp)

/-! ## The client of a system is a pipeline -/

theorem clientSteps_cons (l : Pipeline.Label) (h : List Label) :
    clientSteps (.client l :: h) = l :: clientSteps h := rfl

/-- **The client's part of a run is a run of the pipeline.** -/
theorem client_run (hr : (system N M L).Run h s) :
    (Pipeline.pipeline N M L.decode).Run (clientSteps h) s.client ∧
      (s.clientStarted = false → clientSteps h = [] ∧ s.client.Started) := by
  refine LTS.Run.invariant (I := fun h s =>
    (Pipeline.pipeline N M L.decode).Run (clientSteps h) s.client ∧
      (s.clientStarted = false → clientSteps h = [] ∧ s.client.Started))
    (fun s h0 => ?_) (fun h s e s' _ hi hs => ?_) hr
  · exact ⟨.start h0.2.2.2.2, fun _ => ⟨rfl, h0.2.2.2.2⟩⟩
  · obtain ⟨m, hm⟩ := hs
    obtain ⟨hrun, hnot⟩ := hi
    cases next_cases hm with
    | server | connect | refused => exact ⟨hrun, hnot⟩
    | start hfalse =>
      -- the loops start on the empty queues of the client
      obtain ⟨hnil, h1, h2, h3, h4, h5, -, h7, h8⟩ := hnot hfalse
      have hsteps : clientSteps (.start true :: h) = [] := hnil
      refine ⟨?_, fun hf => absurd hf (by simp)⟩
      rw [hsteps]
      exact .start ⟨h1, h2, h3, h4, h5, rfl, h7, h8⟩
    | client hstarted hstep _ =>
      exact ⟨hrun.next hstep, fun hf => absurd (hstarted.symm.trans hf) (by simp)⟩

/-! ## What the server does -/

/-- The ticks generated for connection `k`. -/
def offered (h : List Label) (k : ℕ) : List MarketData :=
  (level Prod.fst (LTS.seen served h) k).map Prod.snd

/-- The server is in its loop over connection `k`. -/
def Serves (s : System N M) (k : ℕ) : Prop := s.serverPc.Serving ∧ s.network.serving = k

/-- What connection `k` got of the ticks generated for it: all, but for one at the end that is
still in hand, or whose `send` failed. -/
structure Offered (h : List Label) (s : System N M) (k : ℕ) (c : Connection) : Prop where
  ticks : ∃ lost, offered h k = c.sent ++ lost ∧ lost.length ≤ 1 ∧
    (Serves s k → lost = s.serverPc.hand) ∧
    (¬ Serves s k → ∀ tick ∈ lost, ∃ stored, Label.server k (.sendFailed tick stored) ∈ h)
  cut : c.cut.length < MarketData.size
  whole : Serves s k ∨ s.network.accepted ≤ k → c.cut = []

/-- **The server and its connections.** -/
structure Served (L : Layout) (h : List Label) (s : System N M) : Prop where
  accepted : s.network.accepted ≤ s.network.connections.length
  serving : s.serverPc.Serving → 0 < s.network.accepted
  /-- The connections are served one after the other, in the order they were made. -/
  sorted : (LTS.seen served h).Pairwise fun x y => x.1 ≤ y.1
  below : ∀ x ∈ LTS.seen served h, x.1 < s.network.accepted
  counter : s.server.tickCounter = UInt64.ofNat (LTS.seen served h).length
  ticked : ∀ i x, (LTS.seen served h)[i]? = some x → Ticked L i x.2
  offered : ∀ k c, s.network.connections[k]? = some c → Offered h s k c
  client : ∀ k, s.network.client = some k → k < s.network.connections.length

theorem served_fresh (h0 : Fresh s) : Served L [] s := by
  obtain ⟨hpc, hserver, hnet, -⟩ := h0
  constructor
  case accepted => rw [hnet]; rfl
  case serving => rw [hpc]; exact False.elim
  case sorted => exact List.Pairwise.nil
  case below => exact fun x hx => absurd hx List.not_mem_nil
  case counter => rw [hserver]; rfl
  case ticked => exact fun i x hx => absurd hx (by simp)
  case offered => rw [hnet]; exact fun k c hc => absurd hc (by simp [Network.empty])
  case client => rw [hnet]; exact fun k hk => absurd hk (by simp [Network.empty])

/-- Nothing was generated for a connection that was not accepted yet. -/
theorem Served.offered_new (hv : Served L h s) {k : ℕ} (hk : s.network.accepted ≤ k) :
    System.offered h k = [] := by
  unfold System.offered
  rw [level_eq_nil fun x hx => ((hv.below x hx).trans_le hk).ne]
  rfl

theorem offered_quiet (he : served e = none) (k : ℕ) :
    System.offered (e :: h) k = System.offered h k := by
  unfold System.offered
  rw [LTS.seen_cons, he, Option.toList_none, List.append_nil]

/-- A connection with what it has got, as far as the steps of the others are concerned. -/
theorem Offered.frame {k : ℕ} {c c' : Connection} (ho : Offered h s k c) (he : served e = none)
    (hc : c'.sent = c.sent ∧ c'.cut = c.cut)
    (hserves : Serves s' k → Serves s k ∧ s'.serverPc.hand = s.serverPc.hand)
    (hleft : Serves s k → ¬ Serves s' k → s.serverPc.hand = [])
    (haccepted : s.network.accepted ≤ s'.network.accepted) : Offered (e :: h) s' k c' := by
  obtain ⟨⟨lost, hl, hle, hhand, hfailed⟩, hcut, hwhole⟩ := ho
  refine ⟨⟨lost, ?_, hle, fun hs => ?_, fun hs tick htick => ?_⟩, by rw [hc.2]; exact hcut,
    fun hs => ?_⟩
  · rw [offered_quiet he, hc.1, hl]
  · rw [(hserves hs).2, hhand (hserves hs).1]
  · by_cases hserved : Serves s k
    · rw [hhand hserved, hleft hserved hs] at htick
      exact absurd htick List.not_mem_nil
    · obtain ⟨stored, hmem⟩ := hfailed hserved tick htick
      exact ⟨stored, List.mem_cons_of_mem _ hmem⟩
  · rw [hc.2]
    exact hwhole (hs.imp (fun hs => (hserves hs).1) haccepted.trans)

/-- A step that generates nothing. -/
theorem Served.quiet (hv : Served L h s) (he : served e = none)
    (hcounter : s'.server.tickCounter = s.server.tickCounter)
    (haccepted : s.network.accepted ≤ s'.network.accepted)
    (hlen : s'.network.accepted ≤ s'.network.connections.length)
    (hserving : s'.serverPc.Serving → 0 < s'.network.accepted)
    (hoffered : ∀ k c, s'.network.connections[k]? = some c → Offered (e :: h) s' k c)
    (hclient : ∀ k, s'.network.client = some k → k < s'.network.connections.length) :
    Served L (e :: h) s' := by
  have hseen : LTS.seen served (e :: h) = LTS.seen served h := by
    rw [LTS.seen_cons, he, Option.toList_none, List.append_nil]
  constructor
  case accepted => exact hlen
  case serving => exact hserving
  case sorted => rw [hseen]; exact hv.sorted
  case below => rw [hseen]; exact fun x hx => (hv.below x hx).trans_le haccepted
  case counter => rw [hseen, hcounter]; exact hv.counter
  case ticked => rw [hseen]; exact hv.ticked
  case offered => exact hoffered
  case client => exact hclient

/-- A step of the client, or of somebody who connects. -/
theorem Served.network (hv : Served L h s) (he : served e = none) (hpc : s'.serverPc = s.serverPc)
    (hserver : s'.server = s.server) (haccepted : s'.network.accepted = s.network.accepted)
    (hlen : s.network.connections.length ≤ s'.network.connections.length)
    (hconn : ∀ k c', s'.network.connections[k]? = some c' →
      (∃ c, s.network.connections[k]? = some c ∧ c'.sent = c.sent ∧ c'.cut = c.cut) ∨
        s.network.connections.length ≤ k ∧ c' = .new)
    (hclient : ∀ k, s'.network.client = some k → k < s'.network.connections.length) :
    Served L (e :: h) s' := by
  have hserving : s'.network.serving = s.network.serving := by
    rw [Network.serving, Network.serving, haccepted]
  have hserves : ∀ k, Serves s' k → Serves s k := fun k ⟨h1, h2⟩ => ⟨hpc ▸ h1, hserving ▸ h2⟩
  have hserved : ∀ k, Serves s k → Serves s' k := fun k ⟨h1, h2⟩ => ⟨hpc ▸ h1, hserving ▸ h2⟩
  refine hv.quiet he (by rw [hserver]) (by rw [haccepted])
    (by rw [haccepted]; exact hv.accepted.trans hlen) (fun hs => ?_) (fun k c' hc' => ?_) hclient
  · rw [haccepted]
    exact hv.serving (hpc ▸ hs)
  · rcases hconn k c' hc' with ⟨c, hc, hsame⟩ | ⟨hk, rfl⟩
    · exact (hv.offered k c hc).frame he hsame (fun hs => ⟨hserves k hs, by rw [hpc]⟩)
        (fun hs hnot => absurd (hserved k hs) hnot) (by rw [haccepted])
    · -- a connection that was just made
      have hno : ¬ Serves s' k := by
        intro hs
        have hpos := hv.serving (hserves k hs).1
        have hserv := (hserves k hs).2
        have hle := hv.accepted
        rw [Network.serving] at hserv
        omega
      refine ⟨⟨[], ?_, Nat.zero_le 1, fun hs => absurd hs hno, by simp⟩, by decide, fun _ => rfl⟩
      rw [offered_quiet he]
      exact hv.offered_new (hv.accepted.trans hk)

/-- The connections after somebody connected. -/
theorem connect_connections {net : Network} {k : ℕ} {c' : Connection}
    (hc : net.connect.connections[k]? = some c') :
    (∃ c, net.connections[k]? = some c ∧ c'.sent = c.sent ∧ c'.cut = c.cut) ∨
      net.connections.length ≤ k ∧ c' = .new := by
  have hc' : (net.connections ++ [Connection.new])[k]? = some c' := hc
  rcases Nat.lt_or_ge k net.connections.length with hk | hk
  · rw [List.getElem?_append_left hk] at hc'
    exact Or.inl ⟨c', hc', rfl, rfl⟩
  · rw [List.getElem?_append_right hk] at hc'
    exact Or.inr ⟨hk, (List.mem_singleton.mp (List.mem_of_getElem? hc'))⟩

theorem modify_connections {net : Network} {j k : ℕ} {f : Connection → Connection}
    {c' : Connection} (hc : (net.modify j f).connections[k]? = some c') :
    ∃ c, net.connections[k]? = some c ∧ c' = if j = k then f c else c := by
  have hc' : (net.connections.modify j f)[k]? = some c' := hc
  rw [List.getElem?_modify] at hc'
  obtain ⟨c, hget, he⟩ := Option.map_eq_some_iff.mp hc'
  exact ⟨c, hget, he.symm⟩

theorem modify_length (net : Network) (j : ℕ) (f : Connection → Connection) :
    (net.modify j f).connections.length = net.connections.length :=
  List.length_modify ..

/-- A connection is taken into service. -/
theorem Served.taken (hv : Served L h s) {fd : Int} (he : served e = none)
    (hpc : s.serverPc = .accept) (hlt : s.network.accepted < s.network.connections.length) :
    Served L (e :: h)
      { s with
        serverPc := .loop fd
        network := { s.network with accepted := s.network.accepted + 1 } } := by
  refine hv.quiet he rfl (Nat.le_succ _) hlt (fun _ => Nat.succ_pos _) (fun k c hc => ?_) hv.client
  by_cases hk : k = s.network.accepted
  · subst hk
    have ho := hv.offered _ c hc
    obtain ⟨lost, hl, -, -⟩ := ho.ticks
    have hnone := hv.offered_new (k := s.network.accepted) le_rfl
    rw [hnone] at hl
    obtain ⟨hsent, -⟩ := List.append_eq_nil_iff.mp hl.symm
    refine ⟨⟨[], ?_, Nat.zero_le 1, fun _ => rfl, by simp⟩, ho.cut,
      fun _ => ho.whole (Or.inr le_rfl)⟩
    rw [offered_quiet he, hnone, hsent]
    rfl
  · exact (hv.offered k c hc).frame he ⟨rfl, rfl⟩ (fun hs => absurd hs.2.symm hk)
      (fun hs => absurd hs.1 (by rw [hpc]; exact id)) (Nat.le_succ _)

/-- A tick is generated for the connection in service. -/
theorem Served.made (hv : Served L h s) {fd : Int} {tick : MarketData}
    (hpc : s.serverPc = .generate fd) (hticked : Ticked L (LTS.seen served h).length tick) :
    Served L (.server s.network.serving (.generated tick) :: h)
      { s with
        serverPc := .send fd tick
        server := { s.server with tickCounter := s.server.tickCounter + 1 } } := by
  have hpos := hv.serving (by rw [hpc]; trivial)
  have hserving : s.network.serving < s.network.accepted := Nat.sub_lt hpos Nat.one_pos
  have hseen : LTS.seen served (.server s.network.serving (.generated tick) :: h) =
      LTS.seen served h ++ [(s.network.serving, tick)] := LTS.seen_cons _ _ _
  constructor
  case accepted => exact hv.accepted
  case serving => exact fun _ => hpos
  case sorted =>
    rw [hseen]
    refine List.pairwise_append.mpr ⟨hv.sorted, List.pairwise_singleton _ _, fun x hx y hy => ?_⟩
    rw [List.mem_singleton.mp hy]
    exact Nat.le_sub_one_of_lt (hv.below x hx)
  case below =>
    rw [hseen]
    intro x hx
    rcases List.mem_append.mp hx with hx | hx
    · exact hv.below x hx
    · rw [List.mem_singleton.mp hx]
      exact hserving
  case counter =>
    rw [hseen, List.length_append, UInt64.ofNat_add, ← hv.counter]
    rfl
  case ticked =>
    rw [hseen]
    intro i x hx
    rcases Nat.lt_or_ge i (LTS.seen served h).length with hi | hi
    · rw [List.getElem?_append_left hi] at hx
      exact hv.ticked i x hx
    · rw [List.getElem?_append_right hi] at hx
      obtain ⟨hzero, hget⟩ := List.getElem?_eq_some_iff.mp hx
      have hi' : i = (LTS.seen served h).length := by
        rw [List.length_singleton] at hzero
        omega
      rw [List.getElem_singleton] at hget
      rw [← hget, hi']
      exact hticked
  case offered =>
    intro k c hc
    obtain ⟨⟨lost, hl, hone, hhand, hfailed⟩, hcut, hwhole⟩ := hv.offered k c hc
    have hserves : Serves { s with serverPc := .send fd tick } k → Serves s k :=
      fun hs => ⟨by rw [hpc]; trivial, hs.2⟩
    refine ⟨?_, hcut, fun hs => hwhole (hs.imp_left hserves)⟩
    unfold System.offered at hl ⊢
    rw [hseen, level, List.filter_append, List.map_append]
    by_cases hk : s.network.serving = k
    · have hnone : lost = [] := by
        rw [hhand ⟨by rw [hpc]; trivial, hk⟩, hpc]
        rfl
      rw [hnone, List.append_nil] at hl
      refine ⟨[tick], ?_, le_rfl, fun _ => rfl, fun hs => absurd ⟨trivial, hk⟩ hs⟩
      rw [← hl]
      simp [hk, level]
    · refine ⟨lost, ?_, hone, fun hs => absurd hs.2 hk, fun _ tick' htick => ?_⟩
      · rw [← hl]
        simp [hk, level]
      · obtain ⟨stored, hmem⟩ := hfailed (fun hs => hk hs.2) tick' htick
        exact ⟨stored, List.mem_cons_of_mem _ hmem⟩
  case client => exact hv.client

/-- Something is written to the connection in service. -/
theorem Served.written (hv : Served L h s) (he : served e = none) {f : Connection → Connection}
    {pc : ServerPc} (hserve : pc.Serving → s.serverPc.Serving)
    (hwritten : ∀ c, Offered h s s.network.serving c →
      Offered (e :: h) { s with serverPc := pc, network := s.network.modify s.network.serving f }
        s.network.serving (f c)) :
    Served L (e :: h)
      { s with serverPc := pc, network := s.network.modify s.network.serving f } := by
  refine hv.quiet he rfl le_rfl ?_ (fun hs => hv.serving (hserve hs)) (fun k c' hc' => ?_)
    fun k hk => ?_
  · rw [modify_length]
    exact hv.accepted
  · obtain ⟨c, hc, rfl⟩ := modify_connections hc'
    by_cases hk : s.network.serving = k
    · subst hk
      rw [if_pos rfl]
      exact hwritten c (hv.offered _ c hc)
    · rw [if_neg hk]
      exact (hv.offered k c hc).frame he ⟨rfl, rfl⟩ (fun hs => absurd hs.2 hk)
        (fun hs => absurd hs.2 hk) le_rfl
  · rw [modify_length]
    exact hv.client k hk

/-- **Every step of the server.** -/
theorem Served.server (hv : Served L h s) {act : ServerAct} {pc : ServerPc} {server : Server}
    {net : Network} (hstep : ServerStep L s.serverPc s.server act pc server)
    (hnet : s.network.afterServer L act = some net) :
    Served L (.server s.network.serving act :: h)
      { s with serverPc := pc, server := server, network := net } := by
  have hle := hv.accepted
  cases hstep with
  | tau hcounter hhand hserve =>
    obtain rfl : s.network = net := Option.some.inj hnet
    refine hv.quiet rfl hcounter le_rfl hle (fun hs => hv.serving (hserve hs)) (fun k c hc => ?_)
      hv.client
    refine (hv.offered k c hc).frame rfl ⟨rfl, rfl⟩ (fun hs => ⟨⟨hserve hs.1, hs.2⟩, ?_⟩)
      (fun _ _ => hhand.1) le_rfl
    rw [hhand.1]
    exact hhand.2
  | accepted fd hpc =>
    simp only [Network.afterServer] at hnet
    split at hnet
    · rename_i hlt
      obtain rfl := Option.some.inj hnet
      exact hv.taken rfl hpc hlt
    · exact absurd hnet (by simp)
  | acceptFailed gone hpc =>
    have hframe : ∀ net' : Network, net'.connections = s.network.connections →
        s.network.accepted ≤ net'.accepted → ∀ k c, net'.connections[k]? = some c →
        Offered (.server s.network.serving (.acceptFailed gone) :: h)
          { s with serverPc := .accept, network := net' } k c := by
      intro net' hconn hacc k c hc
      rw [hconn] at hc
      exact (hv.offered k c hc).frame rfl ⟨rfl, rfl⟩ (fun hs => hs.1.elim)
        (fun hs => absurd hs.1 (by rw [hpc]; exact id)) hacc
    cases gone with
    | false =>
      obtain rfl : s.network = net := Option.some.inj hnet
      exact hv.quiet rfl rfl le_rfl hle False.elim (hframe _ rfl le_rfl) hv.client
    | true =>
      simp only [Network.afterServer] at hnet
      split at hnet
      · rename_i hlt
        obtain rfl := Option.some.inj hnet
        exact hv.quiet rfl rfl (Nat.le_succ _) hlt False.elim (hframe _ rfl (Nat.le_succ _))
          hv.client
      · exact absurd hnet (by simp)
  | generated fd draws hpc =>
    obtain rfl : s.network = net := Option.some.inj hnet
    refine hv.made hpc ?_
    rw [hv.counter]
    exact generateMarketData_ticked draws _
  | sent fd tick hpc =>
    obtain rfl := Option.some.inj hnet
    have hserving : s.serverPc.Serving := by rw [hpc]; trivial
    refine hv.written rfl (fun _ => hserving) fun c ho => ?_
    -- the tick in hand was the one not sent yet
    obtain ⟨⟨lost, hl, -, hhand, -⟩, hcut, hwhole⟩ := ho
    have hlost : lost = [tick] := by
      rw [hhand ⟨hserving, rfl⟩, hpc]
      rfl
    refine ⟨⟨[], ?_, Nat.zero_le 1, fun _ => rfl, by simp⟩, hcut,
      fun _ => hwhole (Or.inl ⟨hserving, rfl⟩)⟩
    rw [offered_quiet rfl, hl, hlost, List.append_nil]
  | sendFailed fd tick stored hpc =>
    obtain rfl := Option.some.inj hnet
    have hserving : s.serverPc.Serving := by rw [hpc]; trivial
    have hpos := hv.serving hserving
    refine hv.written rfl False.elim fun c ho => ?_
    obtain ⟨⟨lost, hl, hone, hhand, -⟩, -, -⟩ := ho
    have hlost : lost = [tick] := by
      rw [hhand ⟨hserving, rfl⟩, hpc]
      rfl
    refine ⟨⟨lost, ?_, hone, fun hs => hs.1.elim, fun _ tick' htick => ?_⟩, ?_, fun hs => ?_⟩
    · rw [offered_quiet rfl, hl]
    · rw [hlost, List.mem_singleton] at htick
      exact ⟨stored, htick ▸ List.mem_cons_self⟩
    · have hlen : (L.encode tick).toList.length = MarketData.size := Vector.length_toList
      rw [List.length_take, hlen]
      exact (min_le_left _ _).trans_lt stored.isLt
    · rcases hs with hs | hs
      · exact hs.1.elim
      · -- the connection served was accepted before
        have hge : s.network.accepted ≤ s.network.serving := hs
        rw [Network.serving] at hge
        omega

/-- **Every step of the system.** -/
theorem Served.step (hv : Served L h s) (hs : Step L s e s') : Served L (e :: h) s' := by
  have hconnect : s.network.connections.length ≤ s.network.connect.connections.length := by
    simp [Network.connect]
  cases hs with
  | server env hnet => exact hv.server (serverNext_cases env s.serverPc s.server) hnet
  | connect =>
    refine hv.network rfl rfl rfl rfl hconnect (fun k c' hc' => connect_connections hc')
      fun k hk => ?_
    exact (hv.client k hk).trans_le hconnect
  | refused =>
    exact hv.network rfl rfl rfl rfl le_rfl (fun k c' hc' => Or.inl ⟨c', hc', rfl, rfl⟩) hv.client
  | start =>
    refine hv.network rfl rfl rfl rfl hconnect (fun k c' hc' => connect_connections hc')
      fun k hk => ?_
    obtain rfl := Option.some.inj hk
    simp [Network.connectClient, Network.connect]
  | @client label p hstarted hstep hrecv =>
    unfold Network.afterClient
    split
    · refine hv.network rfl rfl rfl rfl hconnect (fun k c' hc' => connect_connections hc')
        fun k hk => ?_
      obtain rfl := Option.some.inj hk
      simp [Network.connectClient, Network.connect]
    · split
      · refine hv.network rfl rfl rfl rfl (modify_length _ _ _).ge (fun k c' hc' => ?_)
          fun k hk => ?_
        · obtain ⟨c, hc, rfl⟩ := modify_connections hc'
          refine Or.inl ⟨c, hc, ?_⟩
          split <;> exact ⟨rfl, rfl⟩
        · rw [modify_length]
          exact hv.client k hk
      · exact hv.network rfl rfl rfl rfl le_rfl (fun k c' hc' => Or.inl ⟨c', hc', rfl, rfl⟩)
          hv.client
    · exact hv.network rfl rfl rfl rfl le_rfl (fun k c' hc' => Or.inl ⟨c', hc', rfl, rfl⟩)
        hv.client

/-- **The server and its connections, in every run.** -/
theorem served_run (hr : (system N M L).Run h s) : Served L h s := by
  refine LTS.Run.invariant (fun s h0 => served_fresh h0) (fun h s e s' _ hv hs => ?_) hr
  obtain ⟨m, hm⟩ := hs
  exact hv.step (next_cases hm)

/-- The ticks generated for the connections before `k`. -/
def before (h : List Label) (k : ℕ) : List MarketData :=
  ((LTS.seen served h).filter fun x => x.1 < k).map Prod.snd

/-- The ticks for connection `k` are a block of the ticks generated. -/
theorem Served.split (hv : Served L h s) (k : ℕ) :
    ∃ later, generated h = before h k ++ (System.offered h k ++ later) := by
  refine ⟨((LTS.seen served h).filter fun x => k < x.1).map Prod.snd, ?_⟩
  unfold generated before System.offered
  rw [← List.map_append, ← List.map_append, ← split_at_level hv.sorted]

/-- All ticks are for connections accepted. -/
theorem Served.before_all (hv : Served L h s) {k : ℕ} (hk : s.network.accepted ≤ k) :
    before h k = generated h := by
  unfold before generated
  rw [List.filter_eq_self.mpr fun x hx => by simpa using (hv.below x hx).trans_le hk]

/-- The ticks are numbered in the order of their generation. -/
theorem Served.numbered (hv : Served L h s) (i : ℕ) (md : MarketData)
    (hmd : (generated h)[i]? = some md) : Ticked L i md := by
  rw [generated, List.getElem?_map] at hmd
  obtain ⟨x, hx, rfl⟩ := Option.map_eq_some_iff.mp hmd
  exact hv.ticked i x hx

theorem before_sublist (e : Label) (h : List Label) (k : ℕ) :
    (before h k).Sublist (before (e :: h) k) := by
  unfold before
  rw [LTS.seen_cons, List.filter_append]
  exact (List.sublist_append_left _ _).map _

theorem Served.sent_prefix (hv : Served L h s) {k : ℕ} {c : Connection}
    (hc : s.network.connections[k]? = some c) : c.sent <+: System.offered h k := by
  obtain ⟨lost, hl, -⟩ := (hv.offered k c hc).ticks
  exact ⟨lost, hl.symm⟩

/-- A tick that was sent is read back from its bytes. -/
theorem Served.decode_encode (hv : Served L h s) {k : ℕ} {c : Connection}
    (hc : s.network.connections[k]? = some c) {md : MarketData} (hmd : md ∈ c.sent) :
    L.decode (L.encode md) = md := by
  have hmem : md ∈ System.offered h k := (hv.sent_prefix hc).subset hmd
  obtain ⟨x, hx, rfl⟩ := List.mem_map.mp hmem
  obtain ⟨i, hi⟩ := List.mem_iff_getElem?.mp (mem_level.mp hx).1
  exact (hv.ticked i x hi).decode_encode

/-- A client that has not started. -/
def idleClient : Pipeline 4 4 :=
  ⟨.test, .test, .test, ⟨false, Fifo.empty, Fifo.empty, .new, 0, 0, 1⟩⟩

/-- Nothing has happened yet. -/
def idleSystem : System 4 4 := ⟨.start, .new, .empty, false, idleClient⟩

theorem idleSystem_fresh : idleSystem.Fresh :=
  ⟨rfl, rfl, rfl, rfl, rfl, rfl, rfl, rfl, rfl, rfl, rfl, rfl⟩

/-- The draws of the lowest bid. -/
def lowDraws : TickDraws Layout.cents where
  bid := 189.95
  spread := 0.01
  double := ⟨18995, by norm_num, by norm_num⟩
  price := by norm_num
  tight := by norm_num

/-- The server sends a tick, loses one with the connection, and sends a third to the client that
has reconnected; the client counts the first and the third, and makes an order of the first. -/
def reconnectMoves : List (Move Layout.cents) :=
  let server accept send := Move.server ⟨true, .ok accept, lowDraws, send⟩
  let client role ready := Move.client role
    ⟨none, true, ⟨Vector.replicate 8 0, .hold, 0, 0, 0⟩, 0⟩ ready
  let tick := List.replicate 3 (server 5 (.ok ()))
  let receive := List.replicate 5 (client .network (some 40))
  List.replicate 2 (server 5 (.ok ())) ++ [.start true] ++ [server 5 (.ok ())] ++ tick ++ receive ++
    List.replicate 2 (server 5 (.ok ())) ++ [server 5 (.error 7)] ++
    List.replicate 3 (client .network (some 0)) ++ List.replicate 3 (client .network none) ++
    List.replicate 5 (client .network (some 40)) ++ [server 6 (.ok ())] ++ tick ++ receive ++
    List.replicate 4 (client .strategy none) ++ List.replicate 4 (client .execution none)

/-- Where these moves lead, if each of them meets `C`. -/
def reconnected (C : System 4 4 → Label → Prop) [∀ s e, Decidable (C s e)] :
    List Label × System 4 4 :=
  (LTS.exec (LTS.guarded C (next Layout.cents)) reconnectMoves ([], idleSystem)).getD
    ([], idleSystem)

theorem reconnected_run {C : System 4 4 → Label → Prop} [∀ s e, Decidable (C s e)]
    (hsome : (LTS.exec (LTS.guarded C (next Layout.cents)) reconnectMoves
      ([], idleSystem)).isSome = true) :
    ((system 4 4 Layout.cents).restrict C).Run (reconnected C).1 (reconnected C).2 :=
  LTS.Run.exec_restrict (.start idleSystem_fresh) (LTS.exec_getD hsome)

end System

end Mms
