import Mms.Lib.Fifo
import Mms.Lib.Transition
import Mms.MarketData.DepthGenerator

/-!
# Sequence numbers of the packets (`src/mms/market_data/MarketDepthGenerator.cc`)

A message is stamped with `m_seq` when it is generated, and `m_seq` advances when a message is
sent. Between the two lies the send queue, a bounded queue whose push does nothing when it is full.

* `depthCalls`: any order of the calls `enqueue(generate_depth_message())` and `send_msg()`.
* `stamps`: the numbers on the packets sent, and then on the messages queued. A call only adds to
  the end of this list (`step_stamps`).
* `packets_numbered_iff`: the packets of a run are numbered from the initial value, also when
  everything queued is sent, iff every message was enqueued into an empty queue.
* `run_idle`: the loop of `run` is such a run.
* `two_packets_one_number`: two messages enqueued before either is sent.
-/

namespace Mms

open Lib

open WireDepthMsgV1 (Buffer)

/-- The sending side of `MarketDepthGenerator`: `m_seq` and the lists, `m_send_q`, and the packets
sent to each client, oldest first. -/
structure DepthSender where
  generator : MarketDepthGenerator
  sendQ : Fifo MarketDepthMessage (1 <<< 10)
  sent : List Buffer

namespace DepthSender

/-- A sender with nothing queued and nothing sent. -/
def new (g : MarketDepthGenerator) : DepthSender := ⟨g, Fifo.empty, []⟩

/-- The lists of the constructor and its `m_seq{}`. -/
def constructed : MarketDepthGenerator where
  symbols := [#v[65, 65, 80, 76, 0, 0], #v[65, 77, 90, 78, 0, 0], spcx, #v[84, 83, 76, 65, 0, 0],
    #v[77, 83, 70, 84, 0, 0]]
  strikes := [⟨20000⟩, ⟨30000⟩, ⟨20000⟩, ⟨80000⟩, ⟨100000⟩]
  basePrices := [⟨21000⟩, ⟨32000⟩, ⟨16000⟩, ⟨85000⟩, ⟨92000⟩]
  seq := 0

/-- `enqueue`. -/
def enqueue (s : DepthSender) (msg : MarketDepthMessage) : DepthSender :=
  match s.sendQ.push msg with
  | some q => { s with sendQ := q }
  | none => s

/-- `send_msg`. -/
def sendMsg (s : DepthSender) : DepthSender :=
  match s.sendQ.pop with
  | none => s
  | some (msg, q) =>
    { generator := { s.generator with seq := s.generator.seq + 1 }
      sendQ := q
      sent := s.sent ++ [MarketDepthGenerator.serialize msg] }

/-- A call on the sender. -/
inductive Call where
  /-- `enqueue(generate_depth_message())`. -/
  | enqueue (d : DepthDraws)
  | sendMsg

/-- The calls of `c` on `s` can leave `s'`. -/
def Calls (s : DepthSender) : Call → DepthSender → Prop
  | .enqueue d, s' => ∃ (hg : s.generator.Filled) (hd : s.generator.Allowed d),
      s' = s.enqueue (s.generator.generateDepthMessage d hg hd)
  | .sendMsg, s' => s' = s.sendMsg

/-- Any order of calls on a sender constructed from `g`. -/
def depthCalls (g : MarketDepthGenerator) : LTS DepthSender Call where
  init s := s = new g
  step := Calls

/-- The sequence number a receiver reads. -/
def packetSeq (buf : Buffer) : UInt16 := (MarketDepthConsumer.deserialize 0 buf).seq

/-- The `n`-th number is `first + n`. -/
def Numbered (first : UInt16) (seqs : List UInt16) : Prop :=
  ∀ (n : ℕ) (seq : UInt16), seqs[n]? = some seq → seq = first + UInt16.ofNat n

/-- The numbers on the packets sent, and then on the messages queued. -/
def stamps (s : DepthSender) : List UInt16 :=
  s.sent.map packetSeq ++ s.sendQ.items.map fun msg => msg.header.seq

/-- The sender when everything queued has been sent. -/
def drain (s : DepthSender) : DepthSender := sendMsg^[s.sendQ.items.length] s

/-- The queue is empty whenever a message is enqueued. -/
def Idle (s : DepthSender) : Call → Prop
  | .enqueue _ => s.sendQ.items = []
  | .sendMsg => True

/-! ## Numbered lists -/

theorem numbered_nil (first : UInt16) : Numbered first [] := fun n seq h => by simp at h

/-- Successive packets differ by one. -/
theorem Numbered.succ {first : UInt16} {seqs : List UInt16} (h : Numbered first seqs) {n : ℕ}
    {seq seq' : UInt16} (hn : seqs[n]? = some seq) (hn' : seqs[n + 1]? = some seq') :
    seq' = seq + 1 := by
  rw [h n seq hn, h (n + 1) seq' hn', UInt16.ofNat_add, ← UInt16.add_assoc]
  rfl

theorem numbered_append {first : UInt16} {seqs : List UInt16} {seq : UInt16} :
    Numbered first (seqs ++ [seq]) ↔
      Numbered first seqs ∧ seq = first + UInt16.ofNat seqs.length := by
  constructor
  · intro h
    refine ⟨fun n q hn => h n q ?_, h seqs.length seq (by simp)⟩
    have hlt : n < seqs.length := (List.getElem?_eq_some_iff.mp hn).1
    rw [List.getElem?_append_left hlt, hn]
  · rintro ⟨h, hseq⟩ n q hn
    by_cases hlt : n < seqs.length
    · rw [List.getElem?_append_left hlt] at hn
      exact h n q hn
    · rw [List.getElem?_append_right (Nat.le_of_not_lt hlt), List.getElem?_singleton] at hn
      split at hn
      · rename_i h0
        obtain rfl := Option.some.inj hn
        have hlen : n = seqs.length := by omega
        rw [hlen]
        exact hseq
      · exact absurd hn (by simp)

/-! ## One call -/

/-- **Sending moves a number from the queue to the packets**, and advances the counter. -/
theorem sendMsg_cases (s : DepthSender) :
    (s.sendQ.items = [] ∧ s.sendMsg = s) ∨
    ∃ msg q, s.sendQ.items = msg :: q ∧ s.sendMsg.sendQ.items = q ∧
      s.sendMsg.sent = s.sent ++ [MarketDepthGenerator.serialize msg] ∧
      s.sendMsg.generator = { s.generator with seq := s.generator.seq + 1 } := by
  unfold sendMsg
  cases hp : s.sendQ.pop with
  | none => exact Or.inl ⟨Fifo.pop_eq_none.mp hp, rfl⟩
  | some r =>
    obtain ⟨msg, q⟩ := r
    exact Or.inr ⟨msg, q.items, Fifo.pop_eq_some hp, rfl, rfl, rfl⟩

/-- **Enqueuing** adds the message, or does nothing when the queue is full. -/
theorem enqueue_cases (s : DepthSender) (msg : MarketDepthMessage) :
    (s.enqueue msg).sent = s.sent ∧ (s.enqueue msg).generator = s.generator ∧
      ((s.sendQ.items.length = 1 <<< 10 ∧ s.enqueue msg = s) ∨
        (s.enqueue msg).sendQ.items = s.sendQ.items ++ [msg]) := by
  unfold enqueue
  cases hp : s.sendQ.push msg with
  | none => exact ⟨rfl, rfl, Or.inl ⟨Fifo.push_eq_none.mp hp, rfl⟩⟩
  | some q => exact ⟨rfl, rfl, Or.inr (Fifo.push_eq_some hp)⟩

theorem packetSeq_serialize (msg : MarketDepthMessage) :
    packetSeq (MarketDepthGenerator.serialize msg) = msg.header.seq :=
  (deserialize_serialize 0 msg).seq

theorem stamps_sendMsg (s : DepthSender) : s.sendMsg.stamps = s.stamps := by
  rcases s.sendMsg_cases with ⟨-, he⟩ | ⟨msg, q, hq, hq', hsent, -⟩
  · rw [he]
  · unfold stamps
    rw [hq, hq', hsent, List.map_append, List.map_singleton, packetSeq_serialize,
      List.append_assoc]
    rfl

/-- What draining sends is what was stamped. -/
theorem drain_sent (s : DepthSender) : s.drain.sent.map packetSeq = s.stamps := by
  unfold drain
  generalize hn : s.sendQ.items.length = n
  induction n generalizing s with
  | zero =>
    have hnil : s.sendQ.items = [] := List.length_eq_zero_iff.mp hn
    unfold stamps
    rw [hnil, Function.iterate_zero, id, List.map_nil, List.append_nil]
  | succ n ih =>
    rcases s.sendMsg_cases with ⟨hnil, -⟩ | ⟨msg, q, hq, hq', -⟩
    · rw [hnil] at hn
      exact absurd hn (by simp)
    · rw [hq, List.length_cons] at hn
      rw [Function.iterate_succ_apply, ih s.sendMsg (by rw [hq']; omega), stamps_sendMsg]

/-! ## Every run -/

variable {g : MarketDepthGenerator} {h : List Call} {s s' : DepthSender}

theorem depthCalls_init (s s' : DepthSender) (h0 : (depthCalls g).init s)
    (h0' : (depthCalls g).init s') : s = s' := Eq.trans h0 (Eq.symm h0')

theorem calls_deterministic (s : DepthSender) (e : Call) (s1 s2 : DepthSender)
    (h1 : Calls s e s1) (h2 : Calls s e s2) : s1 = s2 := by
  cases e with
  | enqueue d =>
    obtain ⟨_, _, rfl⟩ := h1
    obtain ⟨_, _, rfl⟩ := h2
    rfl
  | sendMsg => exact Eq.trans h1 (Eq.symm h2)

/-- The counter is the initial value and the packets sent. The run enqueued into an empty queue only
iff all numbers stamped so far are right, and then at most one message waits. -/
structure Stamped (g : MarketDepthGenerator) (h : List Call) (s : DepthSender) : Prop where
  counter : s.generator.seq = g.seq + UInt16.ofNat s.sent.length
  idle : ((depthCalls g).restrict Idle).Run h s ↔ Numbered g.seq s.stamps
  waiting : Numbered g.seq s.stamps → s.sendQ.items.length ≤ 1

/-- The stamp of a message is right iff nothing waits before it. -/
theorem Stamped.right_iff (hs : Stamped g h s) (hn : Numbered g.seq s.stamps) :
    s.generator.seq = g.seq + UInt16.ofNat s.stamps.length ↔ s.sendQ.items = [] := by
  have hone := hs.waiting hn
  have hlen : s.stamps.length = s.sent.length + s.sendQ.items.length := by
    unfold stamps
    rw [List.length_append, List.length_map, List.length_map]
  rw [hs.counter, hlen, ← List.length_eq_zero_iff, UInt16.ofNat_add, ← UInt16.add_assoc]
  constructor
  · intro he
    have hzero : UInt16.ofNat s.sendQ.items.length = 0 := by grind
    have hmod : s.sendQ.items.length % 2 ^ 16 = 0 := congrArg UInt16.toNat hzero
    omega
  · intro hzero
    rw [hzero]
    exact (UInt16.add_zero _).symm

theorem Stamped.sendMsg (hr : (depthCalls g).Run h s) (hs : Stamped g h s) :
    Stamped g (.sendMsg :: h) s.sendMsg := by
  have hstep : (depthCalls g).step s .sendMsg s.sendMsg := rfl
  have hnext := LTS.Run.next_restrict depthCalls_init calls_deterministic (C := Idle) hr hstep
  have hidle : Idle s .sendMsg ↔ True := Iff.rfl
  rw [hidle, and_true, hs.idle, ← stamps_sendMsg] at hnext
  refine ⟨?_, hnext, fun hn => ?_⟩
  · rcases s.sendMsg_cases with ⟨-, he⟩ | ⟨msg, q, -, -, hsent, hg⟩
    · rw [he]
      exact hs.counter
    · have hseq : s.sendMsg.generator.seq = s.generator.seq + 1 := congrArg _ hg
      rw [hseq, hsent, hs.counter, List.length_append, UInt16.ofNat_add, UInt16.add_assoc]
      rfl
  · have hone := hs.waiting (s.stamps_sendMsg ▸ hn)
    rcases s.sendMsg_cases with ⟨-, he⟩ | ⟨msg, q, hq, hq', -⟩
    · rw [he]
      exact hone
    · rw [hq, List.length_cons] at hone
      rw [hq']
      omega

/-- A full queue has been filled without sending. -/
theorem Stamped.not_numbered_of_full (hs : Stamped g h s)
    (hfull : s.sendQ.items.length = 1 <<< 10) : ¬ Numbered g.seq s.stamps := by
  intro hn
  have hone := hs.waiting hn
  rw [hfull] at hone
  exact absurd hone (by decide)

theorem Stamped.enqueue {d : DepthDraws} (hr : (depthCalls g).Run h s) (hs : Stamped g h s)
    (hstep : (depthCalls g).step s (.enqueue d) s') : Stamped g (.enqueue d :: h) s' := by
  have hnext := LTS.Run.next_restrict depthCalls_init calls_deterministic (C := Idle) hr hstep
  have hidle : Idle s (.enqueue d) ↔ s.sendQ.items = [] := Iff.rfl
  rw [hidle, hs.idle] at hnext
  obtain ⟨hg, hd, rfl⟩ := hstep
  obtain ⟨hsent, hgen, hq⟩ := s.enqueue_cases (s.generator.generateDepthMessage d hg hd)
  have hcounter : (s.enqueue (s.generator.generateDepthMessage d hg hd)).generator.seq =
      g.seq + UInt16.ofNat
        (s.enqueue (s.generator.generateDepthMessage d hg hd)).sent.length := by
    rw [hsent, hgen]
    exact hs.counter
  rcases hq with ⟨hfull, he⟩ | hq
  · have hwrong := hs.not_numbered_of_full hfull
    rw [he] at hcounter hnext ⊢
    exact ⟨hcounter, hnext.trans (iff_of_false (fun hn => hwrong hn.1) hwrong),
      fun hn => absurd hn hwrong⟩
  · have hstamps : (s.enqueue (s.generator.generateDepthMessage d hg hd)).stamps =
        s.stamps ++ [s.generator.seq] := by
      unfold stamps
      rw [hsent, hq, List.map_append, List.append_assoc]
      rfl
    have hnumbered : Numbered g.seq s.stamps ∧ s.sendQ.items = [] ↔
        Numbered g.seq (s.stamps ++ [s.generator.seq]) := by
      rw [numbered_append]
      exact and_congr_right fun hn => (hs.right_iff hn).symm
    refine ⟨hcounter, ?_, fun hn => ?_⟩
    · rw [hstamps]
      exact hnext.trans hnumbered
    · rw [hstamps] at hn
      rw [hq, (hnumbered.mpr hn).2]
      exact Nat.le_refl 1

/-- **Each call keeps this.** -/
theorem Stamped.step {e : Call} (hr : (depthCalls g).Run h s) (hs : Stamped g h s)
    (hstep : (depthCalls g).step s e s') : Stamped g (e :: h) s' := by
  cases e with
  | sendMsg =>
    obtain rfl : s' = s.sendMsg := hstep
    exact hs.sendMsg hr
  | enqueue d => exact hs.enqueue hr hstep

/-- Every run of calls keeps it. -/
theorem run_stamped (hr : (depthCalls g).Run h s) : Stamped g h s := by
  refine LTS.Run.invariant (I := Stamped g) (fun s h0 => ?_) (fun h s e s' hr hs hstep => ?_) hr
  · have h0' : s = new g := h0
    rw [h0']
    refine ⟨(UInt16.add_zero _).symm, ⟨fun _ => numbered_nil _, fun _ => .start rfl⟩, fun _ => ?_⟩
    exact Nat.zero_le 1
  · exact hs.step hr hstep

/-- **When the packets are numbered.** In a run that enqueues into an empty queue only, the `n`-th
packet sent carries the initial value plus `n`, modulo 2^16, so two successive packets differ by
one. These are all such runs: when what is queued is sent too, the packets of any other one are not
so numbered. -/
theorem packets_numbered_iff (hr : (depthCalls g).Run h s) :
    (((depthCalls g).restrict Idle).Run h s → Numbered g.seq (s.sent.map packetSeq) ∧
      ∀ (n : ℕ) (seq seq' : UInt16), (s.sent.map packetSeq)[n]? = some seq →
        (s.sent.map packetSeq)[n + 1]? = some seq' → seq' = seq + 1) ∧
      (((depthCalls g).restrict Idle).Run h s ↔ Numbered g.seq (s.drain.sent.map packetSeq)) := by
  have hs := run_stamped hr
  rw [drain_sent]
  refine ⟨fun hidle => ?_, hs.idle⟩
  have hn : Numbered g.seq (s.sent.map packetSeq) := by
    intro n seq hget
    refine hs.idle.mp hidle n seq ?_
    unfold stamps
    rw [List.getElem?_append_left (List.getElem?_eq_some_iff.mp hget).1, hget]
  exact ⟨hn, fun n seq seq' h1 h2 => hn.succ h1 h2⟩

/-- **The loop of `run`** generates, enqueues and sends: it enqueues into an empty queue only. -/
theorem run_idle (hr : ((depthCalls g).restrict Idle).Run h s) (hq : s.sendQ.items = [])
    {d : DepthDraws} (hs : Calls s (.enqueue d) s') :
    ((depthCalls g).restrict Idle).Run (.sendMsg :: .enqueue d :: h) s'.sendMsg ∧
      s'.sendMsg.sendQ.items = [] := by
  have hr1 : ((depthCalls g).restrict Idle).Run (.enqueue d :: h) s' := hr.next ⟨hq, hs⟩
  refine ⟨hr1.next ⟨trivial, rfl⟩, ?_⟩
  have hone := (run_stamped hr1.of_restrict).waiting
    ((run_stamped hr1.of_restrict).idle.mp hr1)
  rcases s'.sendMsg_cases with ⟨hnil, he⟩ | ⟨msg, q, hq1, hq2, -⟩
  · rw [he, hnil]
  · rw [hq1, List.length_cons] at hone
    rw [hq2]
    exact List.length_eq_zero_iff.mp (by omega)

theorem constructed_filled : constructed.Filled := ⟨by simp [constructed], rfl, rfl⟩

/-- A draw for the first option, on the ask side. -/
theorem constructed_allowed : constructed.Allowed ⟨0, 0, 1000, 5⟩ :=
  ⟨by decide, by decide, by decide⟩

/-- The first message the draw gives. -/
def firstMessage : MarketDepthMessage :=
  constructed.generateDepthMessage ⟨0, 0, 1000, 5⟩ constructed_filled constructed_allowed

/-- Two turns of the loop of `run`. -/
theorem packets_numbered_iff_loop :
    let d : DepthDraws := ⟨0, 0, 1000, 5⟩
    let s := (((new constructed).enqueue firstMessage).sendMsg.enqueue
      { firstMessage with header := { firstMessage.header with seq := 1 } }).sendMsg
    (depthCalls constructed).Run [.sendMsg, .enqueue d, .sendMsg, .enqueue d] s ∧
      s.sent.map packetSeq = [0, 1] ∧ Numbered 0 (s.sent.map packetSeq) := by
  intro d s
  have h0 : ((depthCalls constructed).restrict Idle).Run [] (new constructed) := .start rfl
  obtain ⟨h1, hq1⟩ := run_idle (d := d) h0 rfl ⟨constructed_filled, constructed_allowed, rfl⟩
  have hsecond : (depthCalls constructed).step ((new constructed).enqueue firstMessage).sendMsg
      (.enqueue d) (((new constructed).enqueue firstMessage).sendMsg.enqueue
        { firstMessage with header := { firstMessage.header with seq := 1 } }) :=
    ⟨⟨constructed_filled.nonempty, rfl, rfl⟩, ⟨constructed_allowed.idx, constructed_allowed.isBid,
      constructed_allowed.modifier⟩, rfl⟩
  obtain ⟨h2, -⟩ := run_idle h1 hq1 hsecond
  exact ⟨h2.of_restrict, by decide +kernel, ((packets_numbered_iff h2.of_restrict).1 h2).1⟩

/-- **Two packets with one number.** Two messages are enqueued before the first is sent. -/
theorem two_packets_one_number :
    let d : DepthDraws := ⟨0, 0, 1000, 5⟩
    let s := (((new constructed).enqueue firstMessage).enqueue firstMessage).sendMsg.sendMsg
    (depthCalls constructed).Run [.sendMsg, .sendMsg, .enqueue d, .enqueue d] s ∧
      s.sent.map packetSeq = [0, 0] ∧ ¬ Numbered constructed.seq (s.sent.map packetSeq) := by
  intro d s
  have hsent : s.sent.map packetSeq = [0, 0] := by decide +kernel
  have h0 : (depthCalls constructed).Run [] (new constructed) := .start rfl
  have h1 : (depthCalls constructed).Run [.enqueue d] ((new constructed).enqueue firstMessage) :=
    h0.next ⟨constructed_filled, constructed_allowed, rfl⟩
  have h2 : (depthCalls constructed).Run [.enqueue d, .enqueue d]
      (((new constructed).enqueue firstMessage).enqueue firstMessage) :=
    h1.next ⟨constructed_filled, constructed_allowed, rfl⟩
  have h3 : (depthCalls constructed).Run [.sendMsg, .enqueue d, .enqueue d]
      (((new constructed).enqueue firstMessage).enqueue firstMessage).sendMsg := h2.next rfl
  refine ⟨h3.next rfl, hsent, fun hn => ?_⟩
  have hone : (0 : UInt16) = 0 + UInt16.ofNat 1 := hn 1 0 (by rw [hsent]; rfl)
  exact absurd hone (by decide)

end DepthSender

end Mms
