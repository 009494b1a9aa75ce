import Mms.MarketData.Wire

/-!
# Generated depth messages (`src/mms/market_data/MarketDepthGenerator.cc`)

Model of `generate_depth_message`, and of the test by which the receiver tells bids from asks. The
random draws and the clock reading are an argument. The message is built by position, as in the
source: `MarketDepthMessage` has `flags` before `_pad`, and the initialiser gives `0` for the one
and the side bit for the other.

* `flags_generateDepthMessage`: so no generated message has a flag set.
* `side_survives_iff`: the side of a message survives exactly on asks.
-/

namespace Mms

/-- The lists and the counter of `MarketDepthGenerator` that a message is generated from. -/
structure MarketDepthGenerator where
  symbols : List Symbol
  strikes : List Price32
  basePrices : List Price32
  seq : UInt16

/-- The random draws and the clock reading of one message. -/
structure DepthDraws where
  /-- `idx_dist`. -/
  idx : ℕ
  /-- `side_dist`. -/
  isBid : UInt8
  /-- `price_modifier`. -/
  modifier : Int32
  now : UInt64

namespace MarketDepthGenerator

/-- The lists are not empty and of equal length. -/
structure Filled (g : MarketDepthGenerator) : Prop where
  nonempty : g.symbols ≠ []
  strikes : g.strikes.length = g.symbols.length
  basePrices : g.basePrices.length = g.symbols.length

/-- What the distributions can give. -/
structure Allowed (g : MarketDepthGenerator) (d : DepthDraws) : Prop where
  idx : d.idx < g.symbols.length
  isBid : d.isBid = 0 ∨ d.isBid = 1
  modifier : 1000 ≤ d.modifier.toInt ∧ d.modifier.toInt ≤ 5000

/-- `_generate_header`. -/
def generateHeader (g : MarketDepthGenerator) (now : UInt64) : Header :=
  { tsNs := now, seq := g.seq, version := WireDepthMsgV1.version }

/-- `_generate_option`. -/
def generateOption (g : MarketDepthGenerator) (idx : ℕ) (hk : idx < g.strikes.length)
    (hs : idx < g.symbols.length) : Structs.Option :=
  ⟨g.strikes[idx], g.symbols[idx], 26, 6, 19, 1⟩

/-- `m_base_prices[idx]`. -/
def basePrice (g : MarketDepthGenerator) (idx : ℕ) (hb : idx < g.basePrices.length) : Int32 :=
  g.basePrices[idx].price

/-- `generate_depth_message`. -/
def generateDepthMessage (g : MarketDepthGenerator) (d : DepthDraws) (hg : g.Filled)
    (hd : g.Allowed d) : MarketDepthMessage :=
  let base := g.basePrice d.idx (hg.basePrices ▸ hd.idx)
  let price : Price32 := if d.isBid ≠ 0 then ⟨base - d.modifier⟩ else ⟨base + d.modifier⟩
  let flags := d.isBid &&& MarketDepthMessage.isBidBit
  ⟨g.generateHeader d.now, g.generateOption d.idx (hg.strikes ▸ hd.idx) hd.idx, price, 0,
    #v[flags]⟩

/-- `(msg.flags & IsBid)? "bid": "ask"` of the receiver. -/
def receivedSide (msg : InternalDepthMessage) : Side :=
  if msg.flags &&& InternalDepthMessage.isBid ≠ 0 then .bid else .ask

/-- The price of the message is the base price minus the modifier. -/
def BuiltOnBid (g : MarketDepthGenerator) (d : DepthDraws) (hg : g.Filled) (hd : g.Allowed d) :
    Prop :=
  (g.generateDepthMessage d hg hd).price =
    ⟨g.basePrice d.idx (hg.basePrices ▸ hd.idx) - d.modifier⟩

/-- The side bit of the message says on which side its price was built, and so does the receiver's
test of the message it decodes. -/
def SideSurvives (g : MarketDepthGenerator) (d : DepthDraws) (hg : g.Filled) (hd : g.Allowed d) :
    Prop :=
  let msg := g.generateDepthMessage d hg hd
  (msg.flags &&& MarketDepthMessage.isBidBit ≠ 0 ↔ g.BuiltOnBid d hg hd) ∧
    ∀ ts, let received := receivedSide (MarketDepthConsumer.deserialize ts (serialize msg))
      (received = .bid ↔ g.BuiltOnBid d hg hd) ∧ (received = .ask ↔ ¬ g.BuiltOnBid d hg hd)

section

variable {g : MarketDepthGenerator} {d : DepthDraws} {hg : g.Filled} {hd : g.Allowed d}

/-- The side bit ends in `_pad`, and `flags` is the `0` of the initialiser. -/
theorem flags_generateDepthMessage : (g.generateDepthMessage d hg hd).flags = 0 ∧
    (g.generateDepthMessage d hg hd).pad = #v[d.isBid &&& MarketDepthMessage.isBidBit] :=
  ⟨rfl, rfl⟩

/-- Every generated message is received as an ask. -/
theorem receivedSide_generated (ts : UInt64) : receivedSide (MarketDepthConsumer.deserialize ts
    (serialize (g.generateDepthMessage d hg hd))) = .ask := by
  have hflags : (MarketDepthConsumer.deserialize ts
      (serialize (g.generateDepthMessage d hg hd))).flags = 0 :=
    (deserialize_serialize ts (g.generateDepthMessage d hg hd)).flags
  unfold receivedSide
  rw [hflags]
  exact if_neg (by decide)

/-- Adding the modifier and subtracting it differ. -/
theorem add_ne_sub {base modifier : Int32} (hm : 1000 ≤ modifier.toInt ∧ modifier.toInt ≤ 5000) :
    base + modifier ≠ base - modifier := by
  intro he
  have h := congrArg Int32.toInt he
  rw [Int32.toInt_add, Int32.toInt_sub] at h
  obtain ⟨k, hk⟩ := Int.dvd_of_bmod_eq_zero (Int.bmod_eq_bmod_iff_bmod_sub_eq_zero.mp h)
  omega

/-- The price is built on the bid side iff the side draw says so. -/
theorem builtOnBid_iff : g.BuiltOnBid d hg hd ↔ d.isBid ≠ 0 := by
  unfold BuiltOnBid generateDepthMessage
  simp only
  by_cases hb : d.isBid = 0
  · rw [if_neg (by simpa using hb)]
    simp only [Price32.mk.injEq, hb, ne_eq, not_true_eq_false, iff_false]
    exact add_ne_sub hd.modifier
  · rw [if_pos hb]
    exact iff_of_true rfl hb

/-- **When the side survives.** The bit of the message and the receiver's test say on which side the
price was built iff the side draw was ask. -/
theorem side_survives_iff (hg : g.Filled) (hd : g.Allowed d) :
    g.SideSurvives d hg hd ↔ d.isBid = 0 := by
  unfold SideSurvives
  simp only [builtOnBid_iff, receivedSide_generated, flags_generateDepthMessage.1]
  have hbit : ¬ (0 &&& MarketDepthMessage.isBidBit : UInt8) ≠ 0 := by decide
  constructor
  · rintro ⟨hmsg, -⟩
    by_contra hb
    exact hbit (hmsg.mpr hb)
  · intro hb
    refine ⟨iff_of_false hbit (by simp [hb]), fun ts => ⟨?_, iff_of_true trivial (by simp [hb])⟩⟩
    exact iff_of_false (by decide) (by simp [hb])

end

/-- A message drawn on the ask side. -/
theorem side_survives_iff_ask :
    let g : MarketDepthGenerator := ⟨[Vector.replicate 6 65], [⟨20000⟩], [⟨21000⟩], 0⟩
    let d : DepthDraws := ⟨0, 0, 1000, 5⟩
    ∃ (hg : g.Filled) (hd : g.Allowed d), g.SideSurvives d hg hd ↔ d.isBid = 0 := by
  intro g d
  have hg : g.Filled := ⟨by simp [g], rfl, rfl⟩
  have hd : g.Allowed d := ⟨by decide, by decide, by decide⟩
  exact ⟨hg, hd, side_survives_iff hg hd⟩

/-- **A bid is received as an ask.** -/
theorem bid_received_as_ask :
    let g : MarketDepthGenerator := ⟨[Vector.replicate 6 65], [⟨20000⟩], [⟨21000⟩], 0⟩
    let d : DepthDraws := ⟨0, 1, 1000, 5⟩
    ∃ (hg : g.Filled) (hd : g.Allowed d), (g.generateDepthMessage d hg hd).price = ⟨20000⟩ ∧
      (g.generateDepthMessage d hg hd).flags = 0 ∧
      receivedSide (MarketDepthConsumer.deserialize 6 (serialize (g.generateDepthMessage d hg hd)))
        = .ask ∧ ¬ g.SideSurvives d hg hd := by
  intro g d
  have hg : g.Filled := ⟨by simp [g], rfl, rfl⟩
  have hd : g.Allowed d := ⟨by decide, by decide, by decide⟩
  have hbid : g.BuiltOnBid d hg hd := builtOnBid_iff.mpr (by decide)
  have hbase : (21000 - 1000 : Int32) = 20000 := by decide
  have hbit : (0 &&& MarketDepthMessage.isBidBit : UInt8) = 0 := by decide
  exact ⟨hg, hd, hbid.trans (congrArg Price32.mk hbase), rfl, receivedSide_generated 6,
    fun hs => hs.1.mpr hbid hbit⟩

end MarketDepthGenerator

end Mms
