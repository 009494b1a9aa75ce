import Mms.Lib.Fields
import Mms.Structs.Messages

/-!
# The depth packet (`MarketDepthGenerator.cc`, `MarketDepthConsumer.cc`)

The encoder `_serialize` of the sender with its writers, and the decoder `_deserialize` of the
receiver with its readers, as two separate translations that share the offsets of `Structs.hh` only.
Every access to the buffer carries the proof that it is inside.

The packet in between is a list of fields: `fields m`, of the widths `widths`, one after the other
from offset 0.

* `toList_serialize`: the encoder writes `fields m`, end to end.
* `layout_serialize`: the offsets of `Structs.hh` cut a packet into these fields again.
* `deserialize_serialize_iff`: a message comes back as it was sent iff its option has no flags; the
  option's flags are not in the packet.
* `serialize_deserialize`: a well-formed packet is what its decoding encodes to.
-/

namespace Mms

open Lib

open WireDepthMsgV1 (Buffer size)

namespace MarketDepthGenerator

/-! ## The encoder -/

/-- `_write_u8`. -/
def writeU8 (buf : Buffer) (offset : ℕ) (val : UInt8) (h : offset < size) : Buffer :=
  buf.set offset val h

/-- `_write_u16`. -/
def writeU16 (buf : Buffer) (offset : ℕ) (val : UInt16) (h : offset + 1 < size) : Buffer :=
  let buf := buf.set offset ((val >>> 8) &&& 0xFF).toUInt8 (by omega)
  buf.set (offset + 1) (val &&& 0xFF).toUInt8 h

/-- `_write_u32`. -/
def writeU32 (buf : Buffer) (offset : ℕ) (val : UInt32) (h : offset + 3 < size) : Buffer :=
  let buf := buf.set offset ((val >>> 24) &&& 0xFF).toUInt8 (by omega)
  let buf := buf.set (offset + 1) ((val >>> 16) &&& 0xFF).toUInt8 (by omega)
  let buf := buf.set (offset + 2) ((val >>> 8) &&& 0xFF).toUInt8 (by omega)
  buf.set (offset + 3) (val &&& 0xFF).toUInt8 h

/-- `_write_u64`. -/
def writeU64 (buf : Buffer) (offset : ℕ) (val : UInt64) (h : offset + 7 < size) : Buffer :=
  let buf := buf.set offset ((val >>> 56) &&& 0xFF).toUInt8 (by omega)
  let buf := buf.set (offset + 1) ((val >>> 48) &&& 0xFF).toUInt8 (by omega)
  let buf := buf.set (offset + 2) ((val >>> 40) &&& 0xFF).toUInt8 (by omega)
  let buf := buf.set (offset + 3) ((val >>> 32) &&& 0xFF).toUInt8 (by omega)
  let buf := buf.set (offset + 4) ((val >>> 24) &&& 0xFF).toUInt8 (by omega)
  let buf := buf.set (offset + 5) ((val >>> 16) &&& 0xFF).toUInt8 (by omega)
  let buf := buf.set (offset + 6) ((val >>> 8) &&& 0xFF).toUInt8 (by omega)
  buf.set (offset + 7) (val &&& 0xFF).toUInt8 h

/-- `std::memcpy(buf.data() + offset, src, w)`. -/
def copyIn {w : ℕ} (buf : Buffer) (offset : ℕ) (src : Vector UInt8 w)
    (_h : offset + w ≤ size) : Buffer :=
  Vector.ofFn fun i =>
    if hi : offset ≤ i.val ∧ i.val < offset + w then
      have hlt : i.val - offset < w := by omega
      src[i.val - offset]
    else buf[i]

/-- `_serialize`. -/
def serialize (msg : MarketDepthMessage) : Buffer :=
  let buf : Buffer := Vector.replicate size 0
  let buf := writeU8 buf WireMessage.typeOffset WireMessage.MessageType.depth.toUnderlying
    (by decide)
  let buf := writeU8 buf WireMessage.versionOffset WireDepthMsgV1.version (by decide)
  let buf := writeU16 buf WireMessage.lengthOffset WireDepthMsgV1.length (by decide)
  let buf := writeU64 buf WireDepthMsgV1.timestampOffset msg.header.tsNs (by decide)
  let buf := writeU16 buf WireDepthMsgV1.sequenceOffset msg.header.seq (by decide)
  let buf := copyIn buf WireDepthMsgV1.symbolOffset msg.option.symbol (by decide)
  let buf := writeU8 buf WireDepthMsgV1.yearOffset msg.option.year (by decide)
  let buf := writeU8 buf WireDepthMsgV1.monthOffset msg.option.month (by decide)
  let buf := writeU8 buf WireDepthMsgV1.dayOffset msg.option.day (by decide)
  let buf := writeU8 buf WireDepthMsgV1.flagsOffset msg.flags (by decide)
  let buf := writeU32 buf WireDepthMsgV1.strikeOffset msg.option.strike.price.toUInt32 (by decide)
  writeU32 buf WireDepthMsgV1.priceOffset msg.price.price.toUInt32 (by decide)

end MarketDepthGenerator

namespace MarketDepthConsumer

/-! ## The decoder -/

/-- `_read_u8`. -/
def readU8 (buf : Buffer) (offset : ℕ) (h : offset < size) : UInt8 := buf[offset]

/-- `_read_u16`. -/
def readU16 (buf : Buffer) (offset : ℕ) (h : offset + 1 < size) : UInt16 :=
  let hi := buf[offset]
  let lo := buf[offset + 1]
  (hi.toUInt16 <<< 8) ||| lo.toUInt16

/-- `_read_u32`. -/
def readU32 (buf : Buffer) (offset : ℕ) (h : offset + 3 < size) : UInt32 :=
  let hi := readU16 buf offset (by omega)
  let lo := readU16 buf (offset + 2) (by omega)
  (hi.toUInt32 <<< 16) ||| lo.toUInt32

/-- `_read_u64`. -/
def readU64 (buf : Buffer) (offset : ℕ) (h : offset + 7 < size) : UInt64 :=
  let hi := readU32 buf offset (by omega)
  let lo := readU32 buf (offset + 4) (by omega)
  (hi.toUInt64 <<< 32) ||| lo.toUInt64

/-- `_read_i32`. -/
def readI32 (buf : Buffer) (offset : ℕ) (h : offset + 3 < size) : Int32 :=
  (readU32 buf offset h).toInt32

/-- `std::memcpy(dst, buf.data() + offset, w)`. -/
def copyOut (buf : Buffer) (offset w : ℕ) (h : offset + w ≤ size) : Vector UInt8 w :=
  Vector.ofFn fun i => buf[offset + i.val]

/-- `_deserialize`, at the local time `localTs`. -/
def deserialize (localTs : UInt64) (buf : Buffer) : InternalDepthMessage where
  marketTsNs := readU64 buf WireDepthMsgV1.timestampOffset (by decide)
  seq := readU16 buf WireDepthMsgV1.sequenceOffset (by decide)
  option :=
    { symbol := copyOut buf WireDepthMsgV1.symbolOffset 6 (by decide)
      year := readU8 buf WireDepthMsgV1.yearOffset (by decide)
      month := readU8 buf WireDepthMsgV1.monthOffset (by decide)
      day := readU8 buf WireDepthMsgV1.dayOffset (by decide)
      strike := ⟨readI32 buf WireDepthMsgV1.strikeOffset (by decide)⟩
      -- `msg` starts value-initialised, and the option's flags are not assigned
      flags := 0 }
  flags := readU8 buf WireDepthMsgV1.flagsOffset (by decide)
  price := ⟨readI32 buf WireDepthMsgV1.priceOffset (by decide)⟩
  localTs := localTs

end MarketDepthConsumer

/-! ## Bytes of words -/

theorem toUInt8_mask16 (v : UInt16) : (v &&& 0xFF).toUInt8 = UInt8.ofNat v.toNat := by
  apply UInt8.toNat_inj.mp
  have hmask : (0xFF : UInt16).toNat = 2 ^ 8 - 1 := rfl
  rw [UInt16.toNat_toUInt8, UInt16.toNat_and, hmask, Nat.and_two_pow_sub_one_eq_mod,
    UInt8.toNat_ofNat', Nat.mod_mod]

theorem toUInt8_mask32 (v : UInt32) : (v &&& 0xFF).toUInt8 = UInt8.ofNat v.toNat := by
  apply UInt8.toNat_inj.mp
  have hmask : (0xFF : UInt32).toNat = 2 ^ 8 - 1 := rfl
  rw [UInt32.toNat_toUInt8, UInt32.toNat_and, hmask, Nat.and_two_pow_sub_one_eq_mod,
    UInt8.toNat_ofNat', Nat.mod_mod]

theorem toUInt8_mask64 (v : UInt64) : (v &&& 0xFF).toUInt8 = UInt8.ofNat v.toNat := by
  apply UInt8.toNat_inj.mp
  have hmask : (0xFF : UInt64).toNat = 2 ^ 8 - 1 := rfl
  rw [UInt64.toNat_toUInt8, UInt64.toNat_and, hmask, Nat.and_two_pow_sub_one_eq_mod,
    UInt8.toNat_ofNat', Nat.mod_mod]

namespace MarketDepthGenerator

theorem beBytes_fits (buf : Buffer) {off w : ℕ} (v : ℕ) (h : off + w ≤ size) :
    off + (beBytes w v).length ≤ buf.toList.length := by
  rw [length_beBytes, buf.length_toList]
  exact h

theorem toList_writeU8 (buf : Buffer) (off : ℕ) (val : UInt8) (h : off < size) :
    (writeU8 buf off val h).toList = splice buf.toList off (beBytes 1 val.toNat) := by
  have hb : beBytes 1 val.toNat = [val] := by simp [beBytes]
  rw [← setAll_eq_splice (beBytes_fits buf val.toNat h), hb]
  exact Vector.toList_set h

theorem toList_writeU16 (buf : Buffer) (off : ℕ) (val : UInt16) (h : off + 1 < size) :
    (writeU16 buf off val h).toList = splice buf.toList off (beBytes 2 val.toNat) := by
  rw [← setAll_eq_splice (beBytes_fits buf val.toNat h), writeU16]
  simp only [Vector.toList_set, toUInt8_mask16, UInt16.toNat_shiftRight, Nat.shiftRight_eq_div_pow,
    beBytes, Nat.pow_zero, Nat.div_one]
  rfl

theorem toList_writeU32 (buf : Buffer) (off : ℕ) (val : UInt32) (h : off + 3 < size) :
    (writeU32 buf off val h).toList = splice buf.toList off (beBytes 4 val.toNat) := by
  rw [← setAll_eq_splice (beBytes_fits buf val.toNat h), writeU32]
  simp only [Vector.toList_set, toUInt8_mask32, UInt32.toNat_shiftRight, Nat.shiftRight_eq_div_pow,
    beBytes, Nat.pow_zero, Nat.div_one]
  rfl

theorem toList_writeU64 (buf : Buffer) (off : ℕ) (val : UInt64) (h : off + 7 < size) :
    (writeU64 buf off val h).toList = splice buf.toList off (beBytes 8 val.toNat) := by
  rw [← setAll_eq_splice (beBytes_fits buf val.toNat h), writeU64]
  simp only [Vector.toList_set, toUInt8_mask64, UInt64.toNat_shiftRight, Nat.shiftRight_eq_div_pow,
    beBytes, Nat.pow_zero, Nat.div_one]
  rfl

theorem toList_copyIn {w : ℕ} (buf : Buffer) (off : ℕ) (src : Vector UInt8 w)
    (h : off + w ≤ size) : (copyIn buf off src h).toList = splice buf.toList off src.toList := by
  refine List.ext_getElem? fun i => ?_
  rw [getElem?_splice (by rw [src.length_toList, buf.length_toList]; exact h), src.length_toList,
    Vector.getElem?_toList, Vector.getElem?_toList, Vector.getElem?_toList, copyIn,
    Vector.getElem?_ofFn]
  by_cases hi : i < size
  · rw [dif_pos hi]
    by_cases hin : off ≤ i ∧ i < off + w
    · simp [hin, show i - off < w by omega]
    · simp [hin, hi]
  · rw [dif_neg hi, if_neg (by omega), Vector.getElem?_eq_none (by omega)]

/-! ## The packet as a list of fields -/

/-- The fields of the packet of `m`, in the order of their offsets. -/
def fields (m : MarketDepthMessage) : List (List UInt8) :=
  [beBytes 1 WireMessage.MessageType.depth.toUnderlying.toNat,
    beBytes 1 WireDepthMsgV1.version.toNat, beBytes 2 WireDepthMsgV1.length.toNat,
    beBytes 8 m.header.tsNs.toNat, beBytes 2 m.header.seq.toNat, m.option.symbol.toList,
    beBytes 1 m.option.year.toNat, beBytes 1 m.option.month.toNat, beBytes 1 m.option.day.toNat,
    beBytes 1 m.flags.toNat, beBytes 4 m.option.strike.price.toUInt32.toNat,
    beBytes 4 m.price.price.toUInt32.toNat]

/-- The widths of the fields. -/
def widths : List ℕ := [1, 1, 2, 8, 2, 6, 1, 1, 1, 1, 4, 4]

theorem map_length_fields (m : MarketDepthMessage) : (fields m).map List.length = widths := by
  simp [fields, widths]

/-- **The encoder writes the fields end to end.** -/
theorem toList_serialize (m : MarketDepthMessage) : (serialize m).toList = (fields m).flatten := by
  unfold serialize
  simp only [toList_writeU8, toList_writeU16, toList_writeU32, toList_writeU64, toList_copyIn]
  simp (disch := simp) only [splice_splice]
  rw [splice_all]
  · simp [fields]
  · simp

end MarketDepthGenerator

namespace MarketDepthConsumer

/-! ## The fields the decoder reads -/

theorem toNat_halves16 (hi lo : UInt8) :
    ((hi.toUInt16 <<< 8) ||| lo.toUInt16).toNat = hi.toNat * 256 ^ 1 + lo.toNat := by
  rw [UInt16.toNat_or, UInt16.toNat_shiftLeft, UInt8.toNat_toUInt16, UInt8.toNat_toUInt16]
  exact halves_toNat (k := 8) hi.toNat_lt lo.toNat_lt

theorem toNat_halves32 (hi lo : UInt16) :
    ((hi.toUInt32 <<< 16) ||| lo.toUInt32).toNat = hi.toNat * 256 ^ 2 + lo.toNat := by
  rw [UInt32.toNat_or, UInt32.toNat_shiftLeft, UInt16.toNat_toUInt32, UInt16.toNat_toUInt32]
  exact halves_toNat (k := 16) hi.toNat_lt lo.toNat_lt

theorem toNat_halves64 (hi lo : UInt32) :
    ((hi.toUInt64 <<< 32) ||| lo.toUInt64).toNat = hi.toNat * 256 ^ 4 + lo.toNat := by
  rw [UInt64.toNat_or, UInt64.toNat_shiftLeft, UInt32.toNat_toUInt64, UInt32.toNat_toUInt64]
  exact halves_toNat (k := 32) hi.toNat_lt lo.toNat_lt

theorem toNat_readU8 (buf : Buffer) (off : ℕ) (h : off < size) :
    (readU8 buf off h).toNat = beNat (slice buf.toList off 1) := by
  rw [slice_one (by rw [buf.length_toList]; exact h)]
  simp [beNat, readU8]

theorem toNat_readU16 (buf : Buffer) (off : ℕ) (h : off + 1 < size) :
    (readU16 buf off h).toNat = beNat (slice buf.toList off 2) := by
  have hi : beNat (slice buf.toList off 1) = buf[off].toNat :=
    (toNat_readU8 buf off (by omega)).symm
  have lo : beNat (slice buf.toList (off + 1) 1) = buf[off + 1].toNat :=
    (toNat_readU8 buf (off + 1) h).symm
  rw [← slice_append_slice buf.toList off 1 1, beNat_append, hi, lo, length_slice, readU16,
    toNat_halves16]
  rw [buf.length_toList]
  exact h

theorem toNat_readU32 (buf : Buffer) (off : ℕ) (h : off + 3 < size) :
    (readU32 buf off h).toNat = beNat (slice buf.toList off 4) := by
  rw [← slice_append_slice buf.toList off 2 2, beNat_append, ← toNat_readU16 buf off (by omega),
    ← toNat_readU16 buf (off + 2) (by omega), length_slice, readU32, toNat_halves32]
  rw [buf.length_toList]
  omega

theorem toNat_readU64 (buf : Buffer) (off : ℕ) (h : off + 7 < size) :
    (readU64 buf off h).toNat = beNat (slice buf.toList off 8) := by
  rw [← slice_append_slice buf.toList off 4 4, beNat_append, ← toNat_readU32 buf off (by omega),
    ← toNat_readU32 buf (off + 4) (by omega), length_slice, readU64, toNat_halves64]
  rw [buf.length_toList]
  omega

theorem toList_copyOut (buf : Buffer) (off w : ℕ) (h : off + w ≤ size) :
    (copyOut buf off w h).toList = slice buf.toList off w := by
  have hl : buf.toList.length = size := buf.length_toList
  refine List.ext_getElem ?_ fun i hi hi' => ?_
  · rw [Vector.length_toList, length_slice (by omega)]
  · simp [copyOut, slice]

/-- A field spells the number that is read from it. -/
theorem slice_eq_beBytes_iff {buf : Buffer} {off w x : ℕ} (h : off + w ≤ size)
    (hx : x < 256 ^ w) :
    slice buf.toList off w = beBytes w x ↔ beNat (slice buf.toList off w) = x := by
  have hl : (slice buf.toList off w).length = w := by
    apply length_slice
    rwa [buf.length_toList]
  constructor
  · intro he
    rw [he, beNat_beBytes hx]
  · rintro rfl
    have hb := beBytes_beNat (slice buf.toList off w)
    rw [hl] at hb
    exact hb.symm

theorem slice_eq_u8 {buf : Buffer} {off : ℕ} (h : off < size) (x : UInt8) :
    slice buf.toList off 1 = beBytes 1 x.toNat ↔ readU8 buf off h = x := by
  rw [slice_eq_beBytes_iff h x.toNat_lt, ← toNat_readU8 buf off h, UInt8.toNat_inj]

theorem slice_eq_u16 {buf : Buffer} {off : ℕ} (h : off + 1 < size) (x : UInt16) :
    slice buf.toList off 2 = beBytes 2 x.toNat ↔ readU16 buf off h = x := by
  rw [slice_eq_beBytes_iff h x.toNat_lt, ← toNat_readU16 buf off h, UInt16.toNat_inj]

theorem slice_eq_u64 {buf : Buffer} {off : ℕ} (h : off + 7 < size) (x : UInt64) :
    slice buf.toList off 8 = beBytes 8 x.toNat ↔ readU64 buf off h = x := by
  rw [slice_eq_beBytes_iff h x.toNat_lt, ← toNat_readU64 buf off h, UInt64.toNat_inj]

theorem slice_eq_i32 {buf : Buffer} {off : ℕ} (h : off + 3 < size) (x : Int32) :
    slice buf.toList off 4 = beBytes 4 x.toUInt32.toNat ↔ readI32 buf off h = x := by
  rw [slice_eq_beBytes_iff h x.toUInt32.toNat_lt, ← toNat_readU32 buf off h, UInt32.toNat_inj]
  unfold readI32
  constructor
  · intro he
    rw [he]
    exact Int32.toInt32_toUInt32 x
  · rintro rfl
    exact (UInt32.toUInt32_toInt32 _).symm

theorem slice_eq_symbol {buf : Buffer} {off w : ℕ} (h : off + w ≤ size) (x : Vector UInt8 w) :
    slice buf.toList off w = x.toList ↔ copyOut buf off w h = x := by
  rw [← toList_copyOut buf off w h]
  exact Vector.toList_inj

end MarketDepthConsumer

/-! ## Round trips -/

section RoundTrip

open MarketDepthGenerator MarketDepthConsumer

/-- The fields of the packet, as offset and width. -/
def layout : List (ℕ × ℕ) :=
  [(WireMessage.typeOffset, 1), (WireMessage.versionOffset, 1), (WireMessage.lengthOffset, 2),
    (WireDepthMsgV1.timestampOffset, 8), (WireDepthMsgV1.sequenceOffset, 2),
    (WireDepthMsgV1.symbolOffset, 6), (WireDepthMsgV1.yearOffset, 1),
    (WireDepthMsgV1.monthOffset, 1), (WireDepthMsgV1.dayOffset, 1), (WireDepthMsgV1.flagsOffset, 1),
    (WireDepthMsgV1.strikeOffset, 4), (WireDepthMsgV1.priceOffset, 4)]

/-- The offsets of the source are those of fields laid end to end. -/
theorem layout_eq_cut (l : List UInt8) :
    layout.map (fun f => slice l f.1 f.2) = cut widths 0 l := rfl

/-- The fields of a packet are what the encoder put there. -/
theorem layout_serialize (m : MarketDepthMessage) :
    layout.map (fun f => slice (serialize m).toList f.1 f.2) = fields m := by
  rw [layout_eq_cut, toList_serialize, ← map_length_fields m, cut_flatten]

/-- The header of a depth packet of version 1. -/
structure WellFormed (buf : Buffer) : Prop where
  type : readU8 buf WireMessage.typeOffset (by decide) =
    WireMessage.MessageType.depth.toUnderlying
  version : readU8 buf WireMessage.versionOffset (by decide) = WireDepthMsgV1.version
  length : readU16 buf WireMessage.lengthOffset (by decide) = WireDepthMsgV1.length

/-- The received message `d` carries the sent message `m`. -/
structure Carries (d : InternalDepthMessage) (m : MarketDepthMessage) : Prop where
  marketTsNs : d.marketTsNs = m.header.tsNs
  seq : d.seq = m.header.seq
  price : d.price = m.price
  flags : d.flags = m.flags
  option : d.option = m.option

/-- What was received, as a message to be sent. -/
def copied (d : InternalDepthMessage) (version : UInt8) (pad : Vector UInt8 1) :
    MarketDepthMessage :=
  ⟨⟨d.marketTsNs, d.seq, version⟩, d.option, d.price, d.flags, pad⟩

/-- **The decoder reads back what the encoder wrote**, but for the flags of the option. -/
theorem deserialize_serialize (ts : UInt64) (m : MarketDepthMessage) :
    Carries (deserialize ts (serialize m)) { m with option := { m.option with flags := 0 } } := by
  have h := layout_serialize m
  simp only [layout, fields, List.map_cons, List.map_nil, List.cons.injEq] at h
  obtain ⟨-, -, -, hts, hseq, hsym, hyear, hmonth, hday, hflags, hstrike, hprice, -⟩ := h
  refine ⟨(slice_eq_u64 _ _).mp hts, (slice_eq_u16 _ _).mp hseq, ?_, (slice_eq_u8 _ _).mp hflags,
    ?_⟩
  · exact congrArg Price32.mk ((slice_eq_i32 _ _).mp hprice)
  · unfold deserialize
    rw [(slice_eq_symbol _ _).mp hsym, (slice_eq_u8 _ _).mp hyear, (slice_eq_u8 _ _).mp hmonth,
      (slice_eq_u8 _ _).mp hday, (slice_eq_i32 _ _).mp hstrike]

/-- **When a message survives the wire.** The timestamp, the sequence number, the price and the
flags always do; the option does iff its flags are zero. -/
theorem deserialize_serialize_iff (ts : UInt64) (m : MarketDepthMessage) :
    Carries (deserialize ts (serialize m)) m ↔ m.option.flags = 0 := by
  have h := deserialize_serialize ts m
  constructor
  · intro hc
    have hoption := h.option.symm.trans hc.option
    exact (congrArg Structs.Option.flags hoption).symm
  · intro hf
    have hoption : { m.option with flags := 0 } = m.option := by rw [← hf]
    exact ⟨h.marketTsNs, h.seq, h.price, h.flags, h.option.trans hoption⟩

/-- A call is sent, and received as a put. -/
theorem call_received_as_put :
    let m : MarketDepthMessage := ⟨⟨0, 1, 1⟩, ⟨⟨20000⟩, Vector.replicate 6 65, 26, 6, 19, 1⟩,
      ⟨16000⟩, 1, Vector.replicate 1 0⟩
    m.option.flags &&& Structs.Option.isCall ≠ 0 ∧
      (deserialize 0 (serialize m)).option.flags &&& Structs.Option.isCall = 0 ∧
      ¬ Carries (deserialize 0 (serialize m)) m := by
  intro m
  refine ⟨by decide, by decide, fun hc => ?_⟩
  have hflags : (0 : UInt8) = 1 := congrArg Structs.Option.flags hc.option
  exact absurd hflags (by decide)

/-- The fields of what was received are the fields of the packet. -/
theorem fields_copied {buf : Buffer} (hw : WellFormed buf) (ts : UInt64) (version : UInt8)
    (pad : Vector UInt8 1) :
    fields (copied (deserialize ts buf) version pad) =
      layout.map fun f => slice buf.toList f.1 f.2 := by
  have htype := (slice_eq_u8 _ _).mpr hw.type
  have hversion := (slice_eq_u8 _ _).mpr hw.version
  have hlength := (slice_eq_u16 _ _).mpr hw.length
  simp only [layout, fields, List.map_cons, List.map_nil, List.cons.injEq]
  refine ⟨htype.symm, hversion.symm, hlength.symm, ((slice_eq_u64 _ _).mpr rfl).symm,
    ((slice_eq_u16 _ _).mpr rfl).symm, toList_copyOut _ _ _ (by decide),
    ((slice_eq_u8 _ _).mpr rfl).symm, ((slice_eq_u8 _ _).mpr rfl).symm,
    ((slice_eq_u8 _ _).mpr rfl).symm, ((slice_eq_u8 _ _).mpr rfl).symm,
    ((slice_eq_i32 _ _).mpr rfl).symm, ((slice_eq_i32 _ _).mpr rfl).symm, trivial⟩

/-- A well-formed packet is what its decoding encodes to. -/
theorem serialize_copied {buf : Buffer} (hw : WellFormed buf) (ts : UInt64) (version : UInt8)
    (pad : Vector UInt8 1) : serialize (copied (deserialize ts buf) version pad) = buf := by
  apply Vector.toList_inj.mp
  rw [toList_serialize, fields_copied hw, layout_eq_cut, flatten_cut]
  rw [buf.length_toList]
  exact Nat.le_refl size

/-- **Encoding undoes decoding** on every well-formed packet. So the fields the encoder writes tile
the packet: every position lies in one of them and in no other. And no two well-formed packets
decode to the same message. -/
theorem serialize_deserialize {buf : Buffer} (hw : WellFormed buf) (ts : UInt64) :
    (∀ version pad, serialize (copied (deserialize ts buf) version pad) = buf) ∧
    (∀ m, layout.map (fun f => slice (serialize m).toList f.1 f.2) = fields m) ∧
    (∀ i < size, layout.countP (fun f => f.1 ≤ i ∧ i < f.1 + f.2) = 1) ∧
    ∀ buf', WellFormed buf' → deserialize ts buf' = deserialize ts buf → buf' = buf := by
  refine ⟨serialize_copied hw ts, layout_serialize, by decide, fun buf' hw' he => ?_⟩
  rw [← serialize_copied hw ts 0 (Vector.replicate 1 0), ← he, serialize_copied hw']

/-- The packet of a bid for a put. -/
theorem serialize_deserialize_packet :
    let buf : Buffer := #v[1, 1, 0, 32, 0, 0, 0, 0, 0, 0, 0, 9, 0, 7, 83, 80, 67, 88, 0, 0, 26, 6,
      19, 1, 0, 0, 78, 32, 255, 255, 255, 156]
    (∀ version pad, serialize (copied (deserialize 5 buf) version pad) = buf) ∧
    (∀ m, layout.map (fun f => slice (serialize m).toList f.1 f.2) = fields m) ∧
    (∀ i < size, layout.countP (fun f => f.1 ≤ i ∧ i < f.1 + f.2) = 1) ∧
    ∀ buf', WellFormed buf' → deserialize 5 buf' = deserialize 5 buf → buf' = buf :=
  serialize_deserialize ⟨by decide, by decide, by decide⟩ 5

end RoundTrip

end Mms
