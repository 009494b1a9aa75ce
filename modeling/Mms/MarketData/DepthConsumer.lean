import Mms.MarketData.Wire

/-!
# The receiving loop of the depth consumer (`src/mms/market_data/MarketDepthConsumer.cc`)

`MarketDepthConsumer::run` and `read_msg`. `recv` behaves like `recvfrom`: it fails with -1 and
leaves the buffer alone, or stores one datagram at the front of the buffer, cut to the length asked
for, and returns the number of bytes stored.

`read_msg` asks for `MARKET_DEPTH_MSG_LEN` bytes, which is more than the buffer holds; of what it
stores, only the bytes inside the buffer can reach `_deserialize`, and only these are modelled.

* `run_of_sound`: as long as every result is empty or a complete datagram, the loop pushes the
  decodings of the complete ones.
* `run_eq_decoded_iff`: and only then, since every error and every short datagram is decoded too.
-/

namespace Mms

open WireDepthMsgV1 (Buffer size)

/-- What the socket delivers to one `recv`. -/
inductive Received where
  | error
  | datagram (bytes : List UInt8)

/-- `MARKET_DEPTH_MSG_LEN`: `sizeof(MarketDepthMessage)`, with its padding. -/
def marketDepthMsgLen : ℕ := 40

namespace MarketDepthConsumer

/-- The buffer with bytes stored at its front. -/
def storeFront (buf : Buffer) (bytes : List UInt8) : Buffer :=
  Vector.ofFn fun i => if h : i.val < bytes.length then bytes[i.val] else buf[i]

/-- `read_msg`: the result of `recv`, and the buffer after it. -/
def readMsg (buf : Buffer) : Received → ℤ × Buffer
  | .error => (-1, buf)
  | .datagram bytes =>
    let stored := bytes.take marketDepthMsgLen
    (stored.length, storeFront buf stored)

/-- The messages `run` pushes, from the buffer `buf` on, for the results of `recv` in turn. Each
comes with the clock `update_now` reads if the result is decoded. -/
def run : Buffer → List (Received × UInt64) → List InternalDepthMessage
  | _, [] => []
  | buf, (received, localTs) :: rest =>
    let (readBytes, buf) := readMsg buf received
    if readBytes ≠ 0 then deserialize localTs buf :: run buf rest
    else run buf rest

/-- `buf{}`. -/
def zeroBuffer : Buffer := Vector.replicate size 0

/-! ## What should be pushed -/

/-- The packet at the front of a complete datagram. -/
def packet (bytes : List UInt8) (h : size ≤ bytes.length) : Buffer :=
  Vector.ofFn fun i => bytes.get ⟨i.val, Nat.lt_of_lt_of_le i.isLt h⟩

/-- The decoding of a complete datagram. -/
def decoded : Received × UInt64 → Option InternalDepthMessage
  | (.error, _) => none
  | (.datagram bytes, localTs) =>
    if h : size ≤ bytes.length then some (deserialize localTs (packet bytes h)) else none

/-- The result is an empty or a complete datagram. -/
def Sound : Received → Prop
  | .error => False
  | .datagram bytes => bytes.length = 0 ∨ size ≤ bytes.length

/-! ## One result -/

/-- A complete datagram overwrites the whole buffer. -/
theorem storeFront_complete (buf : Buffer) {bytes : List UInt8} (h : size ≤ bytes.length) :
    storeFront buf (bytes.take marketDepthMsgLen) = packet bytes h := by
  have hlen : size ≤ (bytes.take marketDepthMsgLen).length := by
    rw [List.length_take]
    exact Nat.le_min.mpr ⟨by decide, h⟩
  unfold storeFront packet
  congr 1
  funext i
  rw [dif_pos (Nat.lt_of_lt_of_le i.isLt hlen), List.getElem_take]
  rfl

/-- The loop skips nothing but empty datagrams. -/
theorem readMsg_eq_zero (buf : Buffer) (received : Received) :
    (readMsg buf received).1 = 0 ↔ received = .datagram [] := by
  cases received with
  | error => simp [readMsg]
  | datagram bytes =>
    change ((bytes.take marketDepthMsgLen).length : ℤ) = 0 ↔ _
    rw [Int.natCast_eq_zero, List.length_eq_zero_iff, List.take_eq_nil_iff, Received.datagram.injEq]
    exact or_iff_right (by decide)

/-- One turn of the loop: what it pushes, and the buffer it leaves to the next. -/
theorem run_cons (buf : Buffer) (x : Received × UInt64) (rest : List (Received × UInt64)) :
    run buf (x :: rest) =
      (if (readMsg buf x.1).1 ≠ 0 then [deserialize x.2 (readMsg buf x.1).2] else []) ++
        run (readMsg buf x.1).2 rest := by
  simp only [run]
  split <;> rfl

/-- On an empty or complete datagram a turn pushes what it should. -/
theorem turn_of_sound (buf : Buffer) {x : Received × UInt64} (hx : Sound x.1) :
    (if (readMsg buf x.1).1 ≠ 0 then [deserialize x.2 (readMsg buf x.1).2] else []) =
      (decoded x).toList := by
  obtain ⟨received, localTs⟩ := x
  cases received with
  | error => exact absurd hx id
  | datagram bytes =>
    rcases hx with h0 | hsize
    · rw [List.length_eq_zero_iff.mp h0]
      rfl
    · have hne : (readMsg buf (.datagram bytes)).1 ≠ 0 := by
        rw [Ne, readMsg_eq_zero]
        rintro he
        rw [Received.datagram.inj he] at hsize
        exact absurd hsize (by decide)
      rw [if_pos hne, decoded, dif_pos hsize, ← storeFront_complete buf hsize]
      rfl

/-! ## Every sequence of results -/

/-- **As long as every result is an empty or a complete datagram**, the complete ones are decoded,
one message each, and nothing else is pushed. -/
theorem run_of_sound {xs : List (Received × UInt64)} (h : ∀ x ∈ xs, Sound x.1) (buf : Buffer) :
    run buf xs = xs.filterMap decoded := by
  induction xs generalizing buf with
  | nil => rfl
  | cons x xs ih =>
    rw [run_cons, turn_of_sound buf (h x List.mem_cons_self),
      ih fun y hy => h y (List.mem_cons_of_mem _ hy), List.filterMap_cons]
    cases decoded x <;> rfl

/-- An error or a short datagram is not to be decoded, but it is. -/
theorem turn_of_unsound (buf : Buffer) {x : Received × UInt64} (hx : ¬ Sound x.1) :
    decoded x = none ∧ (readMsg buf x.1).1 ≠ 0 := by
  obtain ⟨received, localTs⟩ := x
  rw [Ne, readMsg_eq_zero]
  cases received with
  | error => exact ⟨rfl, by simp⟩
  | datagram bytes =>
    obtain ⟨h0, hsize⟩ := not_or.mp hx
    refine ⟨dif_neg hsize, fun he => h0 ?_⟩
    rw [Received.datagram.inj he]
    rfl

/-- The loop pushes at least as many messages as there are complete datagrams, and more if some
result is an error or short. -/
theorem length_decoded_le (xs : List (Received × UInt64)) (buf : Buffer) :
    (xs.filterMap decoded).length ≤ (run buf xs).length ∧
      ((xs.filterMap decoded).length = (run buf xs).length → ∀ x ∈ xs, Sound x.1) := by
  induction xs generalizing buf with
  | nil => exact ⟨Nat.le_refl 0, fun _ x hx => absurd hx List.not_mem_nil⟩
  | cons x xs ih =>
    obtain ⟨hle, heq⟩ := ih (readMsg buf x.1).2
    rw [run_cons, List.length_append]
    by_cases hx : Sound x.1
    · have hlen : ((x :: xs).filterMap decoded).length =
          (decoded x).toList.length + (xs.filterMap decoded).length := by
        rw [List.filterMap_cons]
        cases decoded x <;> simp [Nat.add_comm]
      rw [turn_of_sound buf hx, hlen]
      refine ⟨Nat.add_le_add_left hle _, fun h y hy => ?_⟩
      rcases List.mem_cons.mp hy with rfl | hy
      · exact hx
      · exact heq (by omega) y hy
    · obtain ⟨hnone, hne⟩ := turn_of_unsound buf hx
      rw [List.filterMap_cons_none hnone, if_pos hne, List.length_singleton]
      exact ⟨by omega, fun h => absurd h (by omega)⟩

/-- **When the consumer fabricates nothing.** For every sequence of results, the messages pushed
are the decodings of the complete datagrams, in order and one for each, iff no result is an error
or a datagram of more than no and fewer than `SIZE` bytes. This is about what is pushed: a datagram
of more than `SIZE` bytes is complete, and is also stored past the end of the buffer
(`stays_inside_iff`). -/
theorem run_eq_decoded_iff (xs : List (Received × UInt64)) :
    run zeroBuffer xs = xs.filterMap decoded ↔ ∀ x ∈ xs, Sound x.1 := by
  constructor
  · intro h
    refine (length_decoded_le xs zeroBuffer).2 ?_
    rw [h]
  · intro h
    exact run_of_sound h zeroBuffer

/-- **A failed receive repeats the last packet**, and a short datagram of one byte is mixed with
it. -/
theorem error_repeats_packet :
    let full : Received := .datagram (List.replicate 32 7)
    (run zeroBuffer [(full, 1), (.error, 2)]).map (fun m => (m.seq, m.price, m.localTs)) =
        [(1799, ⟨117901063⟩, 1), (1799, ⟨117901063⟩, 2)] ∧
      (run zeroBuffer [(full, 1), (.datagram [0], 2)]).map (fun m => m.seq) = [1799, 1799] ∧
      ([(full, 1), (.error, 2)].filterMap decoded).length = 1 ∧
      run zeroBuffer [(full, 1), (.error, 2)] ≠ [(full, 1), (.error, 2)].filterMap decoded := by
  intro full
  have hlen : ([(full, 1), (.error, 2)].filterMap decoded).length = 1 := by decide
  refine ⟨by decide, by decide, hlen, fun he => ?_⟩
  have h2 : (run zeroBuffer [(full, 1), (.error, 2)]).length = 2 := by decide
  rw [he, hlen] at h2
  exact absurd h2 (by decide)

end MarketDepthConsumer

end Mms
