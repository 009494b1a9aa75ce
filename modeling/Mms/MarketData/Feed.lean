import Mathlib.Data.List.Forall2
import Mms.MarketData.DepthConsumer
import Mms.MarketData.Sequence

/-!
# The depth feed from end to end (`src/mms/market_data/`)

The thread of `MarketDepthGenerator::run`, the datagrams, the thread of `MarketDepthConsumer::run`
and the caller of `try_pop`, in any order of their steps. A datagram once sent may arrive at any
time, again, or never, so the network is the list of the packets sent. A receive can also fail.

* `Sending`: the loop of `run` enqueues into an empty queue, so every message generated is sent, as
  the packet of its number.
* `Receiving`: a turn of the consumer decodes the packet it received, or, after a failed receive,
  the one before. What it pushes onto a full queue is lost.
* `popped_from_generated`: so every message popped carries what was generated, but for
  `option.flags`, in the order of the arrivals, and those that are missing are counted.
* `gap_counts_missing`: if the network keeps the order and no receive fails, the sequence numbers
  of two messages popped in a row tell how many generated ones are missing between them.
-/

namespace Mms

open Lib

open WireDepthMsgV1 (Buffer)

open MarketDepthGenerator (serialize)

open MarketDepthConsumer (deserialize readMsg zeroBuffer)

/-- The two threads, what they share, and the packets sent. -/
structure DepthFeed where
  sender : DepthSender
  /-- The sender is between `enqueue(msg)` and `send_msg()`. -/
  sending : Bool
  /-- `buf` of `MarketDepthConsumer::run`. -/
  buf : Buffer
  /-- The consumer is between `_deserialize` and the push of what it gave. -/
  pending : Option InternalDepthMessage
  recvQ : Fifo InternalDepthMessage (1 <<< 10)

namespace DepthFeed

inductive Label where
  /-- `m_gen_fn()` and `enqueue`. -/
  | generate (msg : MarketDepthMessage)
  | send
  /-- `read_msg` gets the `n`-th packet, and `update_now` reads `now`. -/
  | receive (n : ℕ) (packet : Buffer) (now : UInt64)
  /-- `read_msg` returns -1. -/
  | fail (now : UInt64)
  /-- `m_recv_queue.push`, onto a queue with room or a full one. -/
  | push (stored : Bool)
  | tryPop (msg : Option InternalDepthMessage)

def start (g : MarketDepthGenerator) : DepthFeed :=
  ⟨.new g, false, zeroBuffer, none, Fifo.empty⟩

/-- After `read_msg` and, unless it returned 0, `_deserialize`. -/
def afterRead (s : DepthFeed) (received : Received) (now : UInt64) : DepthFeed :=
  let read := readMsg s.buf received
  { s with
    buf := read.2
    pending := if read.1 ≠ 0 then some (deserialize now read.2) else none }

/-- What the environment chooses: who goes on, the draws, the clock, and what arrives. -/
inductive Move where
  | generate (d : DepthDraws)
  | send
  | receive (n : ℕ) (now : UInt64)
  | fail (now : UInt64)
  | push
  | tryPop

instance (g : MarketDepthGenerator) : Decidable g.Filled :=
  decidable_of_iff (g.symbols ≠ [] ∧ g.strikes.length = g.symbols.length ∧
      g.basePrices.length = g.symbols.length)
    ⟨fun h => ⟨h.1, h.2.1, h.2.2⟩, fun h => ⟨h.nonempty, h.strikes, h.basePrices⟩⟩

instance (g : MarketDepthGenerator) (d : DepthDraws) : Decidable (g.Allowed d) :=
  decidable_of_iff (d.idx < g.symbols.length ∧ (d.isBid = 0 ∨ d.isBid = 1) ∧
      (1000 ≤ d.modifier.toInt ∧ d.modifier.toInt ≤ 5000))
    ⟨fun h => ⟨h.1, h.2.1, h.2.2⟩, fun h => ⟨h.idx, h.isBid, h.modifier⟩⟩

/-- One step of a thread. -/
def next : Move → DepthFeed → Option (Label × DepthFeed)
  | .generate d, s =>
    if hg : s.sender.generator.Filled then
      if hd : s.sender.generator.Allowed d then
        let msg := s.sender.generator.generateDepthMessage d hg hd
        if s.sending then none
        else some (.generate msg, { s with sender := s.sender.enqueue msg, sending := true })
      else none
    else none
  | .send, s =>
    if s.sending then some (.send, { s with sender := s.sender.sendMsg, sending := false })
    else none
  | .receive n now, s =>
    match s.pending, s.sender.sent[n]? with
    | none, some packet =>
      some (.receive n packet now, s.afterRead (.datagram packet.toList) now)
    | _, _ => none
  | .fail now, s =>
    match s.pending with
    | none => some (.fail now, s.afterRead .error now)
    | some _ => none
  | .push, s =>
    match s.pending with
    | none => none
    | some msg =>
      let (stored, q) := s.recvQ.offer msg
      some (.push stored, { s with pending := none, recvQ := q })
  | .tryPop, s =>
    match s.recvQ.pop with
    | none => some (.tryPop none, s)
    | some (msg, q) => some (.tryPop (some msg), { s with recvQ := q })

/-- The feed of a generator as constructed. -/
def feed (g : MarketDepthGenerator) : LTS DepthFeed Label :=
  LTS.ofNext (fun s => s = start g) next

/-- **What a step can be.** -/
inductive Step : DepthFeed → Label → DepthFeed → Prop
  | generate {s : DepthFeed} {d : DepthDraws} (hpc : s.sending = false)
      (hg : s.sender.generator.Filled) (hd : s.sender.generator.Allowed d) :
      Step s (.generate (s.sender.generator.generateDepthMessage d hg hd))
        { s with
          sender := s.sender.enqueue (s.sender.generator.generateDepthMessage d hg hd)
          sending := true }
  | send {s : DepthFeed} (hpc : s.sending = true) :
      Step s .send { s with sender := s.sender.sendMsg, sending := false }
  | receive {s : DepthFeed} {n : ℕ} {packet : Buffer} (now : UInt64) (hpc : s.pending = none)
      (hsent : s.sender.sent[n]? = some packet) :
      Step s (.receive n packet now) (s.afterRead (.datagram packet.toList) now)
  | fail {s : DepthFeed} (now : UInt64) (hpc : s.pending = none) :
      Step s (.fail now) (s.afterRead .error now)
  | push {s : DepthFeed} {msg : InternalDepthMessage} (hpc : s.pending = some msg) :
      Step s (.push (s.recvQ.offer msg).1)
        { s with pending := none, recvQ := (s.recvQ.offer msg).2 }
  | tryPop {s : DepthFeed} {msg : InternalDepthMessage} {q} (hpop : s.recvQ.pop = some (msg, q)) :
      Step s (.tryPop (some msg)) { s with recvQ := q }
  | tryPopEmpty {s : DepthFeed} : Step s (.tryPop none) s

theorem step_cases {g : MarketDepthGenerator} {s s' : DepthFeed} {e : Label}
    (hs : (feed g).step s e s') : Step s e s' := by
  obtain ⟨move, hnext⟩ := hs
  cases move with
  | generate d =>
    simp only [next] at hnext
    split at hnext
    · split at hnext
      · split at hnext
        · exact absurd hnext (by simp)
        · rename_i hpc
          obtain ⟨rfl, rfl⟩ := Prod.mk.inj (Option.some.inj hnext)
          exact .generate (Bool.eq_false_iff.mpr hpc) _ _
      · exact absurd hnext (by simp)
    · exact absurd hnext (by simp)
  | send =>
    simp only [next] at hnext
    split at hnext
    · rename_i hpc
      obtain ⟨rfl, rfl⟩ := Prod.mk.inj (Option.some.inj hnext)
      exact .send hpc
    · exact absurd hnext (by simp)
  | receive n now =>
    simp only [next] at hnext
    split at hnext
    · rename_i hpc hsent
      obtain ⟨rfl, rfl⟩ := Prod.mk.inj (Option.some.inj hnext)
      exact .receive now hpc hsent
    · exact absurd hnext (by simp)
  | fail now =>
    simp only [next] at hnext
    split at hnext
    · rename_i hpc
      obtain ⟨rfl, rfl⟩ := Prod.mk.inj (Option.some.inj hnext)
      exact .fail now hpc
    · exact absurd hnext (by simp)
  | push =>
    simp only [next] at hnext
    split at hnext
    · exact absurd hnext (by simp)
    · rename_i msg hpc
      obtain ⟨rfl, rfl⟩ := Prod.mk.inj (Option.some.inj hnext)
      exact .push hpc
  | tryPop =>
    simp only [next] at hnext
    split at hnext
    · obtain ⟨rfl, rfl⟩ := Prod.mk.inj (Option.some.inj hnext)
      exact .tryPopEmpty
    · rename_i hpop
      obtain ⟨rfl, rfl⟩ := Prod.mk.inj (Option.some.inj hnext)
      exact .tryPop hpop

/-! ## What happened -/

/-- The messages generated. -/
def generated : List Label → List MarketDepthMessage :=
  LTS.seen fun
    | .generate msg => some msg
    | _ => none

/-- The packets that arrived, by their number. -/
def arrivals : List Label → List (ℕ × Buffer) :=
  LTS.seen fun
    | .receive n packet _ => some (n, packet)
    | _ => none

/-- The messages popped. -/
def popped : List Label → List InternalDepthMessage :=
  LTS.seen fun
    | .tryPop msg => msg
    | _ => none

/-- The receives that failed, by their times. -/
def fails : List Label → List UInt64 :=
  LTS.seen fun
    | .fail now => some now
    | _ => none

/-- The pushes onto a full queue. -/
def overflows : List Label → List Unit :=
  LTS.seen fun
    | .push false => some ()
    | _ => none

/-- What the turns of the consumer decoded, and the number of the packet that each decoded: the
latest one that arrived, and none before the first. -/
def decodings : List Label → List (Option ℕ × InternalDepthMessage)
  | [] => []
  | .receive n packet now :: h => decodings h ++ [(some n, deserialize now packet)]
  | .fail now :: h =>
    let latest := (arrivals h).getLast?
    decodings h ++ [(latest.map Prod.fst, deserialize now ((latest.map Prod.snd).getD zeroBuffer))]
  | _ :: h => decodings h

/-- `im` tells of the `n`-th message generated, but for `option.flags`, which is 0, or, without `n`,
of the zeroed buffer. -/
def Tells (g : MarketDepthGenerator) (h : List Label) (im : InternalDepthMessage) :
    Option ℕ → Prop
  | some n => ∃ msg, (generated h)[n]? = some msg ∧ im.seq = g.seq + UInt16.ofNat n ∧
      Carries im { msg with option := { msg.option with flags := 0 } }
  | none => im = deserialize im.localTs zeroBuffer

variable {g : MarketDepthGenerator} {h : List Label} {s s' : DepthFeed} {e : Label}

/-! ## A receive -/

theorem afterRead_sender (s : DepthFeed) (received : Received) (now : UInt64) :
    (s.afterRead received now).sender = s.sender := by simp only [afterRead]

theorem afterRead_sending (s : DepthFeed) (received : Received) (now : UInt64) :
    (s.afterRead received now).sending = s.sending := by simp only [afterRead]

/-- **A packet overwrites the buffer and is decoded.** -/
theorem afterRead_packet (s : DepthFeed) (packet : Buffer) (now : UInt64) :
    s.afterRead (.datagram packet.toList) now =
      { s with buf := packet, pending := some (deserialize now packet) } := by
  have hlen : WireDepthMsgV1.size ≤ packet.toList.length := by rw [Vector.length_toList]
  have hbuf : (readMsg s.buf (.datagram packet.toList)).2 = packet := by
    refine (MarketDepthConsumer.storeFront_complete s.buf hlen).trans ?_
    ext i hi
    simp [MarketDepthConsumer.packet]
  have hne : (readMsg s.buf (.datagram packet.toList)).1 ≠ 0 := by
    rw [Ne, MarketDepthConsumer.readMsg_eq_zero]
    intro he
    rw [Received.datagram.inj he] at hlen
    exact absurd hlen (by decide)
  simp only [afterRead]
  rw [hbuf, if_pos hne]

/-- A failed receive decodes what is in the buffer. -/
theorem afterRead_error (s : DepthFeed) (now : UInt64) :
    s.afterRead .error now = { s with pending := some (deserialize now s.buf) } := by
  have hne : (readMsg s.buf .error).1 ≠ 0 := by
    rw [Ne, MarketDepthConsumer.readMsg_eq_zero]
    exact Received.noConfusion
  simp only [afterRead]
  rw [if_pos hne]
  rfl

/-! ## The sender -/

/-- **What the sender has done**: the messages generated are numbered, and all are sent but for the
one that is on its way. -/
structure Sending (g : MarketDepthGenerator) (h : List Label) (s : DepthFeed) : Prop where
  counter : s.sender.generator.seq = g.seq + UInt16.ofNat s.sender.sent.length
  packets : s.sender.sent ++ s.sender.sendQ.items.map serialize = (generated h).map serialize
  stamps : DepthSender.Numbered g.seq ((generated h).map fun msg => msg.header.seq)
  waiting : s.sender.sendQ.items.length = s.sending.toNat

/-- A step that generates and sends nothing. -/
theorem Sending.quiet (hi : Sending g h s) (hsender : s'.sender = s.sender)
    (hpc : s'.sending = s.sending) (hgen : generated (e :: h) = generated h) :
    Sending g (e :: h) s' := by
  obtain ⟨hcounter, hpackets, hstamps, hwaiting⟩ := hi
  rw [← hgen] at hpackets hstamps
  rw [← hsender] at hcounter hpackets hwaiting
  exact ⟨hcounter, hpackets, hstamps, hpc ▸ hwaiting⟩

/-- Between two turns nothing is queued, and everything generated is sent. -/
theorem Sending.idle (hi : Sending g h s) (hpc : s.sending = false) :
    s.sender.sendQ.items = [] ∧ s.sender.sent = (generated h).map serialize := by
  have hlen := hi.waiting
  rw [hpc] at hlen
  have hnil : s.sender.sendQ.items = [] := List.length_eq_zero_iff.mp hlen
  have hpackets := hi.packets
  rw [hnil, List.map_nil, List.append_nil] at hpackets
  exact ⟨hnil, hpackets⟩

theorem Sending.generate {d : DepthDraws} (hi : Sending g h s) (hpc : s.sending = false)
    (hg : s.sender.generator.Filled) (hd : s.sender.generator.Allowed d) :
    Sending g (.generate (s.sender.generator.generateDepthMessage d hg hd) :: h)
      { s with
        sender := s.sender.enqueue (s.sender.generator.generateDepthMessage d hg hd)
        sending := true } := by
  obtain ⟨hnil, hall⟩ := hi.idle hpc
  obtain ⟨hsent, hgen, hq⟩ :=
    s.sender.enqueue_cases (s.sender.generator.generateDepthMessage d hg hd)
  generalize hmsg : s.sender.generator.generateDepthMessage d hg hd = msg at hsent hgen hq ⊢
  have hseq : msg.header.seq = s.sender.generator.seq := by rw [← hmsg]; rfl
  have hgenerated : generated (.generate msg :: h) = generated h ++ [msg] := LTS.seen_cons _ _ _
  have hq : (s.sender.enqueue msg).sendQ.items = [msg] := by
    rcases hq with ⟨hfull, -⟩ | hq
    · -- the queue is empty, so not full
      rw [hnil] at hfull
      exact absurd hfull (by decide)
    · rw [hq, hnil, List.nil_append]
  constructor
  · rw [hgen, hsent]
    exact hi.counter
  · rw [hgenerated, hq, hsent, hall, List.map_append]
  · rw [hgenerated, List.map_append, List.map_singleton, DepthSender.numbered_append]
    refine ⟨hi.stamps, ?_⟩
    rw [hseq, hi.counter, hall, List.length_map, List.length_map]
  · rw [hq]
    rfl

theorem Sending.send (hi : Sending g h s) (hpc : s.sending = true) :
    Sending g (.send :: h) { s with sender := s.sender.sendMsg, sending := false } := by
  have hlen := hi.waiting
  rw [hpc] at hlen
  rcases s.sender.sendMsg_cases with ⟨hnil, -⟩ | ⟨msg, q, hq, hq', hsent, hgen⟩
  · rw [hnil] at hlen
    exact absurd hlen (by decide)
  · have hnil : q = [] := by
      rw [hq, List.length_cons] at hlen
      exact List.length_eq_zero_iff.mp (Nat.succ.inj hlen)
    constructor
    · have hseq : s.sender.sendMsg.generator.seq = s.sender.generator.seq + 1 := congrArg _ hgen
      rw [hseq, hsent, hi.counter, List.length_append, UInt16.ofNat_add, UInt16.add_assoc]
      rfl
    · have hpackets := hi.packets
      rw [hq, hnil] at hpackets
      rw [hq', hsent, hnil, List.map_nil, List.append_nil]
      exact hpackets
    · exact hi.stamps
    · rw [hq', hnil]
      rfl

/-- **Each step keeps it.** -/
theorem Sending.step (hi : Sending g h s) (hs : Step s e s') : Sending g (e :: h) s' := by
  cases hs with
  | generate hpc hg hd => exact hi.generate hpc hg hd
  | send hpc => exact hi.send hpc
  | receive | fail => exact hi.quiet (afterRead_sender _ _ _) (afterRead_sending _ _ _) rfl
  | push | tryPop | tryPopEmpty => exact hi.quiet rfl rfl rfl

theorem run_sending (hr : (feed g).Run h s) : Sending g h s := by
  refine hr.invariant (fun s h0 => ?_) fun _ _ _ _ _ hi hs => hi.step (step_cases hs)
  obtain rfl : s = start g := h0
  exact ⟨(UInt16.add_zero _).symm, rfl, DepthSender.numbered_nil _, rfl⟩

/-! ## The consumer -/

/-- The message is decoded from the packet of its number. -/
def Decodes (sent : List Buffer) : Option ℕ × InternalDepthMessage → Prop
  | (some n, im) => ∃ packet, sent[n]? = some packet ∧ im = deserialize im.localTs packet
  | (none, im) => im = deserialize im.localTs zeroBuffer

/-- **What the consumer has done.** -/
structure Receiving (h : List Label) (s : DepthFeed) : Prop where
  arrived : ∀ x ∈ arrivals h, s.sender.sent[x.1]? = some x.2
  buf : s.buf = ((arrivals h).getLast?.map Prod.snd).getD zeroBuffer
  decodes : ∀ x ∈ decodings h, Decodes s.sender.sent x
  offers : ∃ offered, (decodings h).map Prod.snd = offered ++ s.pending.toList ∧
    Fifo.Loses offered (popped h) (overflows h).length s.recvQ

/-- A packet keeps its number. -/
theorem packet_of_prefix {sent sent' : List Buffer} (hp : sent <+: sent') {n : ℕ} {packet : Buffer}
    (hget : sent[n]? = some packet) : sent'[n]? = some packet := by
  obtain ⟨more, rfl⟩ := hp
  rw [List.getElem?_append_left (List.getElem?_eq_some_iff.mp hget).1, hget]

theorem Decodes.mono {sent sent' : List Buffer} (hp : sent <+: sent') {x} (hx : Decodes sent x) :
    Decodes sent' x := by
  obtain ⟨_ | n, im⟩ := x
  · exact hx
  · obtain ⟨packet, hget, him⟩ := hx
    exact ⟨packet, packet_of_prefix hp hget, him⟩

/-- A step of the sender adds packets. -/
theorem Receiving.sender (hi : Receiving h s) (hp : s.sender.sent <+: s'.sender.sent)
    (hbuf : s'.buf = s.buf) (hpending : s'.pending = s.pending) (hq : s'.recvQ = s.recvQ)
    (harrivals : arrivals (e :: h) = arrivals h) (hdecodings : decodings (e :: h) = decodings h)
    (hpopped : popped (e :: h) = popped h) (hover : overflows (e :: h) = overflows h) :
    Receiving (e :: h) s' := by
  constructor
  · rw [harrivals]
    exact fun x hx => packet_of_prefix hp (hi.arrived x hx)
  · rw [harrivals, hbuf]
    exact hi.buf
  · rw [hdecodings]
    exact fun x hx => (hi.decodes x hx).mono hp
  · rw [hdecodings, hpending, hpopped, hover, hq]
    exact hi.offers

/-- A turn that decodes `packet` adds one message, which waits to be pushed. -/
theorem Receiving.turn (hi : Receiving h s) (packet : Buffer) {now : UInt64} {n : Option ℕ}
    (hpc : s.pending = none)
    (harrived : ∀ x ∈ arrivals (e :: h), s.sender.sent[x.1]? = some x.2)
    (hbuf : packet = ((arrivals (e :: h)).getLast?.map Prod.snd).getD zeroBuffer)
    (hdecodings : decodings (e :: h) = decodings h ++ [(n, deserialize now packet)])
    (hdecodes : Decodes s.sender.sent (n, deserialize now packet))
    (hpopped : popped (e :: h) = popped h) (hover : overflows (e :: h) = overflows h) :
    Receiving (e :: h) { s with buf := packet, pending := some (deserialize now packet) } := by
  obtain ⟨offered, hoffered, hloses⟩ := hi.offers
  rw [hpc, Option.toList_none, List.append_nil] at hoffered
  refine ⟨harrived, hbuf, fun x hx => ?_, offered, ?_, ?_⟩
  · rw [hdecodings] at hx
    rcases List.mem_append.mp hx with hx | hx
    · exact hi.decodes x hx
    · obtain rfl := List.mem_singleton.mp hx
      exact hdecodes
  · rw [hdecodings, List.map_append, hoffered]
    rfl
  · rw [hpopped, hover]
    exact hloses

theorem Receiving.receive {packet : Buffer} {n : ℕ} (now : UInt64) (hi : Receiving h s)
    (hpc : s.pending = none) (hsent : s.sender.sent[n]? = some packet) :
    Receiving (.receive n packet now :: h) (s.afterRead (.datagram packet.toList) now) := by
  have harrivals : arrivals (.receive n packet now :: h) = arrivals h ++ [(n, packet)] :=
    LTS.seen_cons _ _ _
  rw [afterRead_packet]
  refine hi.turn packet hpc ?_ ?_ rfl ⟨packet, hsent, rfl⟩ rfl rfl
  · rw [harrivals]
    intro x hx
    rcases List.mem_append.mp hx with hx | hx
    · exact hi.arrived x hx
    · obtain rfl := List.mem_singleton.mp hx
      exact hsent
  · rw [harrivals, List.getLast?_concat]
    rfl

theorem Receiving.fail (now : UInt64) (hi : Receiving h s) (hpc : s.pending = none) :
    Receiving (.fail now :: h) (s.afterRead .error now) := by
  have harrivals : arrivals (.fail now :: h) = arrivals h :=
    (LTS.seen_cons _ _ _).trans (List.append_nil _)
  rw [afterRead_error]
  refine hi.turn s.buf (n := (arrivals h).getLast?.map Prod.fst) hpc ?_ ?_ ?_ ?_ rfl rfl
  · rw [harrivals]
    exact hi.arrived
  · rw [harrivals]
    exact hi.buf
  · rw [hi.buf]
    rfl
  · rw [hi.buf]
    cases hlast : (arrivals h).getLast? with
    | none => rfl
    | some x => exact ⟨x.2, hi.arrived x (List.mem_of_getLast? hlast), rfl⟩

theorem Receiving.push {msg : InternalDepthMessage} (hi : Receiving h s)
    (hpc : s.pending = some msg) : Receiving (.push (s.recvQ.offer msg).1 :: h)
      { s with pending := none, recvQ := (s.recvQ.offer msg).2 } := by
  obtain ⟨offered, hoffered, hloses⟩ := hi.offers
  rw [hpc] at hoffered
  have hoffer := hloses.offer msg
  refine ⟨hi.arrived, hi.buf, hi.decodes, offered ++ [msg], ?_, ?_⟩
  · rw [Option.toList_none, List.append_nil]
    exact hoffered
  · cases hstored : (s.recvQ.offer msg).1 with
    | true =>
      rw [hstored, if_pos rfl] at hoffer
      exact hoffer
    | false =>
      have hover : overflows (.push false :: h) = overflows h ++ [()] := LTS.seen_cons _ _ _
      rw [hstored, if_neg Bool.false_ne_true] at hoffer
      rw [hover, List.length_append]
      exact hoffer

theorem Receiving.tryPop {msg : InternalDepthMessage} {q} (hi : Receiving h s)
    (hpop : s.recvQ.pop = some (msg, q)) :
    Receiving (.tryPop (some msg) :: h) { s with recvQ := q } := by
  obtain ⟨offered, hoffered, hloses⟩ := hi.offers
  have hpopped : popped (.tryPop (some msg) :: h) = popped h ++ [msg] := LTS.seen_cons _ _ _
  refine ⟨hi.arrived, hi.buf, hi.decodes, offered, hoffered, ?_⟩
  rw [hpopped]
  exact hloses.pop hpop

theorem enqueue_sent (sender : DepthSender) (msg : MarketDepthMessage) :
    (sender.enqueue msg).sent = sender.sent := (sender.enqueue_cases msg).1

theorem sent_prefix_sendMsg (sender : DepthSender) : sender.sent <+: sender.sendMsg.sent := by
  rcases sender.sendMsg_cases with ⟨-, he⟩ | ⟨msg, q, -, -, hsent, -⟩
  · exact ⟨[], by rw [he, List.append_nil]⟩
  · rw [hsent]
    exact List.prefix_append _ _

/-- **Each step keeps it.** -/
theorem Receiving.step (hi : Receiving h s) (hs : Step s e s') : Receiving (e :: h) s' := by
  cases hs with
  | generate hpc hg hd =>
    have hsent := enqueue_sent s.sender (s.sender.generator.generateDepthMessage _ hg hd)
    exact hi.sender ⟨[], by rw [hsent, List.append_nil]⟩ rfl rfl rfl rfl rfl rfl rfl
  | send hpc => exact hi.sender (sent_prefix_sendMsg _) rfl rfl rfl rfl rfl rfl rfl
  | receive now hpc hsent => exact hi.receive now hpc hsent
  | fail now hpc => exact hi.fail now hpc
  | push hpc => exact hi.push hpc
  | tryPop hpop => exact hi.tryPop hpop
  | tryPopEmpty => exact hi.sender (List.prefix_refl _) rfl rfl rfl rfl rfl rfl rfl

theorem run_receiving (hr : (feed g).Run h s) : Receiving h s := by
  refine hr.invariant (fun s h0 => ?_) fun _ _ _ _ _ hi hs => hi.step (step_cases hs)
  obtain rfl : s = start g := h0
  exact ⟨by simp [arrivals], rfl, by simp [decodings], [], rfl, Fifo.loses_empty⟩

/-! ## From one end to the other -/

/-- A decoded packet tells of the message of its number. -/
theorem Sending.tells (hi : Sending g h s) {x : Option ℕ × InternalDepthMessage}
    (hx : Decodes s.sender.sent x) : Tells g h x.2 x.1 := by
  obtain ⟨_ | n, im⟩ := x
  · exact hx
  · obtain ⟨packet, hget, him⟩ := hx
    have hsent : s.sender.sent <+: (generated h).map serialize := ⟨_, hi.packets⟩
    have hpacket := packet_of_prefix hsent hget
    rw [List.getElem?_map] at hpacket
    obtain ⟨msg, hmsg, rfl⟩ := Option.map_eq_some_iff.mp hpacket
    have hcarries := deserialize_serialize im.localTs msg
    rw [← him] at hcarries
    refine ⟨msg, hmsg, ?_, hcarries⟩
    rw [hcarries.seq]
    refine hi.stamps n _ ?_
    rw [List.getElem?_map, hmsg]
    rfl

/-- What is popped was decoded, in this order. -/
theorem popped_tells (hr : (feed g).Run h s) :
    ∃ ns : List (Option ℕ), ns.Sublist ((decodings h).map Prod.fst) ∧
      List.Forall₂ (Tells g h) (popped h) ns := by
  have hsend := run_sending hr
  have hrecv := run_receiving hr
  obtain ⟨offered, hoffered, hloses⟩ := hrecv.offers
  have hsub : (popped h).Sublist ((decodings h).map Prod.snd) := by
    rw [hoffered]
    exact ((List.sublist_append_left _ _).trans hloses.sublist).trans (List.sublist_append_left _ _)
  obtain ⟨xs, hxs, hpopped⟩ := List.sublist_map_iff.mp hsub
  refine ⟨xs.map Prod.fst, hxs.map _, ?_⟩
  rw [hpopped, List.forall₂_map_left_iff, List.forall₂_map_right_iff, List.forall₂_same]
  exact fun x hx => hsend.tells (hrecv.decodes x (hxs.subset hx))

/-- **Whatever the network does**, every message popped carries the fields of a message that was
generated, but for `option.flags`, which no packet holds and which is 0, or, as long as every
receive so far has failed, those of the zeroed buffer. They come in the order in which the consumer
decoded them. What it decoded and is not popped is queued, waits to be pushed, or was pushed onto a
full queue. -/
theorem popped_from_generated (hr : (feed g).Run h s) :
    ∃ ns : List (Option ℕ), ns.Sublist ((decodings h).map Prod.fst) ∧
      List.Forall₂ (Tells g h) (popped h) ns ∧
      (decodings h).length =
        ns.length + s.recvQ.items.length + s.pending.toList.length + (overflows h).length := by
  obtain ⟨ns, hsub, htells⟩ := popped_tells hr
  refine ⟨ns, hsub, htells, ?_⟩
  obtain ⟨offered, hoffered, hloses⟩ := (run_receiving hr).offers
  have hlen := congrArg List.length hoffered
  have hpopped := htells.length_eq
  have hlost := hloses.length
  simp only [List.length_map, List.length_append] at hlen
  omega

/-- Three messages are sent, the second is lost, and the third is popped after the first. -/
def lostMoves : List Move :=
  let d : DepthDraws := ⟨0, 0, 1000, 5⟩
  [.generate d, .send, .generate d, .receive 0 6, .send, .push, .generate d, .send, .receive 2 7,
    .tryPop, .push, .tryPop]

/-- The history of these moves, and where they lead. -/
def lostRun : List Label × DepthFeed :=
  (LTS.exec next lostMoves ([], start DepthSender.constructed)).getD
    ([], start DepthSender.constructed)

theorem run_lostRun : (feed DepthSender.constructed).Run lostRun.1 lostRun.2 := by
  have he : LTS.exec next lostMoves ([], start DepthSender.constructed) = some lostRun :=
    LTS.exec_getD (by decide +kernel)
  exact LTS.Run.exec (.start rfl) he

/-- In this run. -/
theorem popped_from_generated_lost :
    (popped lostRun.1).map (fun im => im.seq) = [0, 2] ∧
      ∃ ns : List (Option ℕ), ns.Sublist ((decodings lostRun.1).map Prod.fst) ∧
        List.Forall₂ (Tells DepthSender.constructed lostRun.1) (popped lostRun.1) ns ∧
        (decodings lostRun.1).length = ns.length + lostRun.2.recvQ.items.length +
          lostRun.2.pending.toList.length + (overflows lostRun.1).length :=
  ⟨by decide +kernel, popped_from_generated run_lostRun⟩

/-- Without failed receives the consumer decodes what arrives. -/
theorem decodings_of_no_fail (hok : fails h = []) :
    (decodings h).map Prod.fst = ((arrivals h).map Prod.fst).map some := by
  induction h with
  | nil => rfl
  | cons e h ih =>
    have hsplit : fails (e :: h) = fails h ++ _ := LTS.seen_cons _ _ _
    rw [hsplit, List.append_eq_nil_iff] at hok
    have ih := ih hok.1
    cases e with
    | receive n packet now =>
      have harrivals : arrivals (.receive n packet now :: h) = arrivals h ++ [(n, packet)] :=
        LTS.seen_cons _ _ _
      rw [decodings, harrivals, List.map_append, List.map_append, List.map_append, ih]
      rfl
    | fail now => exact absurd hok.2 (by simp)
    | generate | send | push | tryPop => exact ih

/-- The difference of two numbers of a numbered list. -/
theorem toNat_sub_stamps (first : UInt16) {n m : ℕ} (hnm : n ≤ m) :
    ((first + UInt16.ofNat m) - (first + UInt16.ofNat n)).toNat = (m - n) % 2 ^ 16 := by
  obtain ⟨k, rfl⟩ := Nat.exists_eq_add_of_le hnm
  have hsub : (first + UInt16.ofNat (n + k)) - (first + UInt16.ofNat n) = UInt16.ofNat k := by
    rw [UInt16.ofNat_add]
    grind
  rw [hsub, Nat.add_sub_cancel_left]
  rfl

/-- **What a gap in the sequence numbers tells.** If the network keeps the order, repeats nothing,
and no receive fails, the messages popped tell of generated ones in order and each at most once.
And the sequence numbers of two popped in a row differ as their positions among the generated ones
do, modulo 2^16, so by one more than there are messages missing between them. -/
theorem gap_counts_missing (hr : (feed g).Run h s) (hok : fails h = [])
    (hkeep : ((arrivals h).map Prod.fst).Pairwise (· < ·)) :
    ∃ ns : List ℕ, ns.Pairwise (· < ·) ∧
      List.Forall₂ (fun im n => Tells g h im (some n)) (popped h) ns ∧
      ∀ (i n m : ℕ) (a b : InternalDepthMessage), ns[i]? = some n → ns[i + 1]? = some m →
        (popped h)[i]? = some a → (popped h)[i + 1]? = some b →
        n < m ∧ (b.seq - a.seq).toNat = (m - n) % 2 ^ 16 := by
  obtain ⟨ns', hsub, htells⟩ := popped_tells hr
  rw [decodings_of_no_fail hok] at hsub
  obtain ⟨ns, hns, rfl⟩ := List.sublist_map_iff.mp hsub
  have hincreasing := hkeep.sublist hns
  rw [List.forall₂_map_right_iff] at htells
  refine ⟨ns, hincreasing, htells, fun i n m a b hn hm ha hb => ?_⟩
  obtain ⟨hi, rfl⟩ := List.getElem?_eq_some_iff.mp hn
  obtain ⟨hj, rfl⟩ := List.getElem?_eq_some_iff.mp hm
  have hlt := List.pairwise_iff_getElem.mp hincreasing i (i + 1) hi hj (Nat.lt_succ_self i)
  obtain ⟨hia, rfl⟩ := List.getElem?_eq_some_iff.mp ha
  obtain ⟨hjb, rfl⟩ := List.getElem?_eq_some_iff.mp hb
  obtain ⟨-, -, ha', -⟩ := htells.get hia hi
  obtain ⟨-, -, hb', -⟩ := htells.get hjb hj
  refine ⟨hlt, ?_⟩
  simp only [List.get_eq_getElem] at ha' hb'
  rw [ha', hb', toNat_sub_stamps g.seq (Nat.le_of_lt hlt)]

/-- One message is missing, and the numbers differ by two. -/
theorem gap_counts_missing_lost : (generated lostRun.1).length = 3 ∧
    ∃ ns : List ℕ, ns.Pairwise (· < ·) ∧
      List.Forall₂ (fun im n => Tells DepthSender.constructed lostRun.1 im (some n))
        (popped lostRun.1) ns ∧
      ∀ (i n m : ℕ) (a b : InternalDepthMessage), ns[i]? = some n → ns[i + 1]? = some m →
        (popped lostRun.1)[i]? = some a → (popped lostRun.1)[i + 1]? = some b →
        n < m ∧ (b.seq - a.seq).toNat = (m - n) % 2 ^ 16 := by
  have harrivals : (arrivals lostRun.1).map Prod.fst = [0, 2] := by decide +kernel
  have hfails : fails lostRun.1 = [] := by decide +kernel
  refine ⟨by decide +kernel, gap_counts_missing run_lostRun hfails ?_⟩
  rw [harrivals]
  decide

end DepthFeed

end Mms
