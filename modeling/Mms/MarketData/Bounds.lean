import Mms.Lib.Reads
import Mms.MarketData.DepthConsumer

/-!
# The packet buffer of the depth consumer (`src/mms/market_data/MarketDepthConsumer.cc`)

`read_msg` asks `recv` for `MARKET_DEPTH_MSG_LEN` bytes, the size of the padded `MarketDepthMessage`
in memory, and hands it a buffer of `WireDepthMsgV1::SIZE` bytes, the size of the packet. Here the
memory goes on behind the buffer: `recv` and the readers work on cells counted from `buf.data()`.

* `sizeof_marketDepthMessage`: the size asked for is the layout of the struct, 40 bytes.
* `loadMessage_within`: `_deserialize` with its composed readers stays inside the buffer, and
  computes what `deserialize` computes (`eval_loadMessage`).
* `stays_inside_iff`: so does `read_msg` iff the datagram fits into the buffer.
* `datagram_overruns_buffer`: a datagram of 33 bytes.
-/

namespace Mms

open Lib

open WireDepthMsgV1 (Buffer size)

/-! ## The length asked for -/

/-- The next multiple of `align`. -/
def alignUp (offset align : ℕ) : ℕ := (offset + align - 1) / align * align

/-- `sizeof` of a struct whose members have the given sizes and alignments. -/
def structSize (members : List (ℕ × ℕ)) : ℕ :=
  alignUp (members.foldl (fun offset m => alignUp offset m.2 + m.1) 0)
    ((members.map Prod.snd).foldl max 1)

/-- `sizeof(MarketDepthMessage::Header)`. -/
def headerSize : ℕ := structSize [(8, 8), (2, 2), (1, 1), (5, 1)]

/-- `sizeof(Option)`. -/
def optionSize : ℕ := structSize [(4, 4), (6, 1), (1, 1), (1, 1), (1, 1), (1, 1), (2, 1)]

/-- **`MARKET_DEPTH_MSG_LEN` is the padded size of the struct**, and the assertion on it holds. -/
theorem sizeof_marketDepthMessage :
    marketDepthMsgLen = structSize [(headerSize, 8), (optionSize, 4), (4, 4), (1, 1), (1, 1)] ∧
      marketDepthMsgLen = headerSize + optionSize + 4 + 2 + 1 + 1 := by decide

namespace MarketDepthConsumer

/-! ## The readers, load by load -/

/-- `_read_u8`. -/
def loadU8 (offset : ℕ) : Reads UInt8 UInt8 := .load offset pure

/-- `_read_u16`. -/
def loadU16 (offset : ℕ) : Reads UInt8 UInt16 := do
  let hi ← loadU8 offset
  let lo ← loadU8 (offset + 1)
  pure ((hi.toUInt16 <<< 8) ||| lo.toUInt16)

/-- `_read_u32`. -/
def loadU32 (offset : ℕ) : Reads UInt8 UInt32 := do
  let hi ← loadU16 offset
  let lo ← loadU16 (offset + 2)
  pure ((hi.toUInt32 <<< 16) ||| lo.toUInt32)

/-- `_read_u64`. -/
def loadU64 (offset : ℕ) : Reads UInt8 UInt64 := do
  let hi ← loadU32 offset
  let lo ← loadU32 (offset + 4)
  pure ((hi.toUInt64 <<< 32) ||| lo.toUInt64)

/-- `_read_i32`. -/
def loadI32 (offset : ℕ) : Reads UInt8 Int32 := do
  let val ← loadU32 offset
  pure val.toInt32

/-- `std::memcpy(dst, buf.data() + offset, w)`. -/
def loadBytes (offset : ℕ) : (w : ℕ) → Reads UInt8 (Vector UInt8 w)
  | 0 => pure #v[]
  | w + 1 => do
    let bytes ← loadBytes offset w
    let last ← loadU8 (offset + w)
    pure (bytes.push last)

/-- `_deserialize`. -/
def loadMessage (localTs : UInt64) : Reads UInt8 InternalDepthMessage := do
  let marketTsNs ← loadU64 WireDepthMsgV1.timestampOffset
  let seq ← loadU16 WireDepthMsgV1.sequenceOffset
  let symbol ← loadBytes WireDepthMsgV1.symbolOffset 6
  let year ← loadU8 WireDepthMsgV1.yearOffset
  let month ← loadU8 WireDepthMsgV1.monthOffset
  let day ← loadU8 WireDepthMsgV1.dayOffset
  let flags ← loadU8 WireDepthMsgV1.flagsOffset
  let strike ← loadI32 WireDepthMsgV1.strikeOffset
  let price ← loadI32 WireDepthMsgV1.priceOffset
  pure
    { marketTsNs := marketTsNs
      seq := seq
      option :=
        { symbol := symbol, year := year, month := month, day := day, strike := ⟨strike⟩,
          flags := 0 }
      flags := flags
      price := ⟨price⟩
      localTs := localTs }

variable {n offset : ℕ}

theorem loadU8_within (h : offset < n) : (loadU8 offset).Within n :=
  Reads.within_load h fun b => Reads.within_pure b

theorem loadU16_within (h : offset + 1 < n) : (loadU16 offset).Within n :=
  Reads.within_bind (loadU8_within (by omega)) fun _ =>
    Reads.within_bind (loadU8_within h) fun _ => Reads.within_pure _

theorem loadU32_within (h : offset + 3 < n) : (loadU32 offset).Within n :=
  Reads.within_bind (loadU16_within (by omega)) fun _ =>
    Reads.within_bind (loadU16_within (by omega)) fun _ => Reads.within_pure _

theorem loadU64_within (h : offset + 7 < n) : (loadU64 offset).Within n :=
  Reads.within_bind (loadU32_within (by omega)) fun _ =>
    Reads.within_bind (loadU32_within (by omega)) fun _ => Reads.within_pure _

theorem loadI32_within (h : offset + 3 < n) : (loadI32 offset).Within n :=
  Reads.within_bind (loadU32_within h) fun _ => Reads.within_pure _

theorem loadBytes_within {w : ℕ} (h : offset + w ≤ n) : (loadBytes offset w).Within n := by
  induction w with
  | zero => exact Reads.within_pure _
  | succ w ih =>
    exact Reads.within_bind (ih (by omega)) fun _ =>
      Reads.within_bind (loadU8_within (by omega)) fun _ => Reads.within_pure _

/-- **`_deserialize` stays inside the buffer.** -/
theorem loadMessage_within (localTs : UInt64) : (loadMessage localTs).Within size := by
  refine Reads.within_bind (loadU64_within (by decide)) fun _ => ?_
  refine Reads.within_bind (loadU16_within (by decide)) fun _ => ?_
  refine Reads.within_bind (loadBytes_within (by decide)) fun _ => ?_
  refine Reads.within_bind (loadU8_within (by decide)) fun _ => ?_
  refine Reads.within_bind (loadU8_within (by decide)) fun _ => ?_
  refine Reads.within_bind (loadU8_within (by decide)) fun _ => ?_
  refine Reads.within_bind (loadU8_within (by decide)) fun _ => ?_
  refine Reads.within_bind (loadI32_within (by decide)) fun _ => ?_
  refine Reads.within_bind (loadI32_within (by decide)) fun _ => ?_
  exact Reads.within_pure _

/-! ## Load by load, the readers compute what they compute at once -/

/-- The memory holds the buffer at its front. -/
def Holds (mem : ℕ → UInt8) (buf : Buffer) : Prop := ∀ i (h : i < size), mem i = buf[i]

section Eval

variable {mem : ℕ → UInt8} {buf : Buffer}

theorem eval_loadU8 (hm : Holds mem buf) (h : offset < size) :
    (loadU8 offset).eval mem = readU8 buf offset h := hm offset h

theorem eval_loadU16 (hm : Holds mem buf) (h : offset + 1 < size) :
    (loadU16 offset).eval mem = readU16 buf offset h := by
  unfold loadU16
  simp only [Reads.eval_bind, Reads.eval_pure, eval_loadU8 hm h,
    eval_loadU8 hm (show offset < size by omega)]
  rfl

theorem eval_loadU32 (hm : Holds mem buf) (h : offset + 3 < size) :
    (loadU32 offset).eval mem = readU32 buf offset h := by
  unfold loadU32
  simp only [Reads.eval_bind, Reads.eval_pure, eval_loadU16 hm (show offset + 1 < size by omega),
    eval_loadU16 hm (show offset + 2 + 1 < size by omega)]
  rfl

theorem eval_loadU64 (hm : Holds mem buf) (h : offset + 7 < size) :
    (loadU64 offset).eval mem = readU64 buf offset h := by
  unfold loadU64
  simp only [Reads.eval_bind, Reads.eval_pure, eval_loadU32 hm (show offset + 3 < size by omega),
    eval_loadU32 hm (show offset + 4 + 3 < size by omega)]
  rfl

theorem eval_loadI32 (hm : Holds mem buf) (h : offset + 3 < size) :
    (loadI32 offset).eval mem = readI32 buf offset h := by
  unfold loadI32
  simp only [Reads.eval_bind, Reads.eval_pure, eval_loadU32 hm h]
  rfl

theorem eval_loadBytes (hm : Holds mem buf) {w : ℕ} (h : offset + w ≤ size) :
    (loadBytes offset w).eval mem = copyOut buf offset w h := by
  induction w with
  | zero => exact Vector.eq_empty.symm
  | succ w ih =>
    unfold loadBytes
    simp only [Reads.eval_bind, Reads.eval_pure, ih (by omega),
      eval_loadU8 hm (show offset + w < size by omega)]
    ext i hi
    by_cases hlt : i < w
    · rw [Vector.getElem_push_lt hlt]
      simp only [copyOut, Vector.getElem_ofFn]
    · obtain rfl : i = w := by omega
      rw [Vector.getElem_push_eq]
      simp only [copyOut, readU8, Vector.getElem_ofFn]

/-- **`_deserialize` computes `deserialize`**, whatever stands behind the buffer. -/
theorem eval_loadMessage (hm : Holds mem buf) (localTs : UInt64) :
    (loadMessage localTs).eval mem = deserialize localTs buf := by
  unfold loadMessage
  simp only [Reads.eval_bind, Reads.eval_pure]
  rw [eval_loadU64 hm (by decide), eval_loadU16 hm (by decide), eval_loadBytes hm (by decide),
    eval_loadU8 hm (by decide), eval_loadU8 hm (by decide), eval_loadU8 hm (by decide),
    eval_loadU8 hm (by decide), eval_loadI32 hm (by decide), eval_loadI32 hm (by decide)]
  rfl

end Eval

/-! ## What one turn of the loop touches -/

/-- `recv` of at most `requested` bytes: its result, the memory after it, and the positions it
writes. -/
def recv (requested : ℕ) (mem : ℕ → UInt8) : Received → ℤ × (ℕ → UInt8) × List ℕ
  | .error => (-1, mem, [])
  | .datagram bytes =>
    let stored := bytes.take requested
    (stored.length, fun i => if h : i < stored.length then stored[i] else mem i,
      List.range stored.length)

/-- Inside the buffer, this is what `readMsg` does. -/
theorem recv_holds {mem : ℕ → UInt8} {buf : Buffer} (hm : Holds mem buf) (received : Received) :
    (recv marketDepthMsgLen mem received).1 = (readMsg buf received).1 ∧
      Holds (recv marketDepthMsgLen mem received).2.1 (readMsg buf received).2 := by
  cases received with
  | error => exact ⟨rfl, hm⟩
  | datagram bytes =>
    refine ⟨rfl, fun i h => ?_⟩
    simp only [recv, readMsg, storeFront, Vector.getElem_ofFn]
    split
    · rfl
    · exact hm i h

/-- `read_msg` writes, and `_deserialize` after it reads, inside the buffer only. -/
structure StaysInside (mem : ℕ → UInt8) (received : Received) (localTs : UInt64) : Prop where
  written : ∀ p ∈ (recv marketDepthMsgLen mem received).2.2, p < size
  loaded : ∀ p ∈ (loadMessage localTs).positions (recv marketDepthMsgLen mem received).2.1, p < size

/-- **When receiving stays inside the buffer**: iff the datagram is no longer than the packet. The
readers stay inside in any case. -/
theorem stays_inside_iff (mem : ℕ → UInt8) (bytes : List UInt8) (localTs : UInt64) :
    StaysInside mem (.datagram bytes) localTs ↔ bytes.length ≤ size := by
  have hwritten : (recv marketDepthMsgLen mem (.datagram bytes)).2.2 =
      List.range (min marketDepthMsgLen bytes.length) := by
    simp only [recv, List.length_take]
  have hlen : size < marketDepthMsgLen := by decide
  constructor
  · intro h
    by_contra hlong
    refine Nat.lt_irrefl size (h.written size ?_)
    rw [hwritten, List.mem_range]
    omega
  · intro hfits
    refine ⟨fun p hp => ?_, Reads.positions_lt _ (loadMessage_within localTs)⟩
    rw [hwritten, List.mem_range] at hp
    omega

/-- **A datagram of 33 bytes**: the last one is written behind the buffer. -/
theorem datagram_overruns_buffer :
    let received := Received.datagram (List.replicate 33 0)
    size ∈ (recv marketDepthMsgLen (fun _ => 0) received).2.2 ∧
      ¬ StaysInside (fun _ => 0) received 0 := by
  intro received
  have hmem : size ∈ (recv marketDepthMsgLen (fun _ => 0) received).2.2 := by decide
  exact ⟨hmem, fun h => Nat.lt_irrefl size (h.written size hmem)⟩

end MarketDepthConsumer

end Mms
