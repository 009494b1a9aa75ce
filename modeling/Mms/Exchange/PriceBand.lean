import Mms.Exchange.Mirror

/-!
# The band of the generated prices

An aggressor is priced from the best price of the other side, which may itself be an aggressor's.
With `m` the mid price, `h` the half width of the spread and `a` the offset, bids stay in
`[m - h, m + h + a]` and asks in `[m - h - a, m + h]`: a price goes `a` past the band of the quotes
on the far side only, and from there the next aggressor comes back into it.

* `Fits`: the configuration keeps both bands within 32 bits, off the invalid price.
* `Notifies`: the callbacks change the live list through `notify_fill` only. Those of
  `generator_main` do (`wiring_notifies`).
* `notifiedRun`: `run` with fill notifications between any two of its steps.
* `mmOrder_inBand`, `aggressorOrder_inBand`: the generated orders, from tracked ones in their bands.
* `prices_in_band`: the bands hold in every state of every run, so no price computation overflows,
  no generated price is invalid, and the two quotes of a pass do not cross.
-/

namespace Mms

open Lib

/-! ## 32-bit sums and differences that fit -/

theorem toInt_add_of_fits {x y : Int32} (lo : Int32.minValue.toInt ≤ x.toInt + y.toInt)
    (hi : x.toInt + y.toInt ≤ Int32.maxValue.toInt) : (x + y).toInt = x.toInt + y.toInt := by
  rw [Int32.toInt_minValue] at lo
  rw [Int32.toInt_maxValue] at hi
  rw [Int32.toInt_add]
  exact Int.bmod_eq_of_le_mul_two (by omega) (by omega)

theorem toInt_sub_of_fits {x y : Int32} (lo : Int32.minValue.toInt ≤ x.toInt - y.toInt)
    (hi : x.toInt - y.toInt ≤ Int32.maxValue.toInt) : (x - y).toInt = x.toInt - y.toInt := by
  rw [Int32.toInt_minValue] at lo
  rw [Int32.toInt_maxValue] at hi
  rw [Int32.toInt_sub]
  exact Int.bmod_eq_of_le_mul_two (by omega) (by omega)

/-! ## The band -/

namespace OptionOrderGeneratorConfig

variable {F : Type}

def mid (c : OptionOrderGeneratorConfig F) : ℤ := c.midPrice.price.toInt

def half (c : OptionOrderGeneratorConfig F) : ℤ := c.spreadHalfWidth.price.toInt

def offset (c : OptionOrderGeneratorConfig F) : ℤ := c.aggressorOffset.price.toInt

/-- The lowest price of an order of a side. -/
def lower (c : OptionOrderGeneratorConfig F) : Side → ℤ
  | .bid => c.mid - c.half
  | .ask => c.mid - c.half - c.offset

/-- The highest price of an order of a side. -/
def upper (c : OptionOrderGeneratorConfig F) : Side → ℤ
  | .bid => c.mid + c.half + c.offset
  | .ask => c.mid + c.half

/-- The configuration leaves room for every price around the mid price. -/
structure Fits (c : OptionOrderGeneratorConfig F) : Prop where
  half : 1 ≤ c.half
  offset : 0 ≤ c.offset
  mmLot : 1 ≤ c.mmLotMax
  aggressorLot : 1 ≤ c.aggressorLotMax
  low : Int32.minValue.toInt < c.mid - c.half - c.offset
  high : c.mid + c.half + c.offset ≤ Int32.maxValue.toInt

/-- The price is in the band of the side. -/
def InBand (c : OptionOrderGeneratorConfig F) (s : Side) (p : Price32) : Prop :=
  c.lower s ≤ p.price.toInt ∧ p.price.toInt ≤ c.upper s

variable {c : OptionOrderGeneratorConfig F} {s : Side} {p : Price32}

/-- The bands of both sides lie between the extremes. -/
theorem Fits.range (hc : c.Fits) (hp : c.InBand s p) :
    c.mid - c.half - c.offset ≤ p.price.toInt ∧ p.price.toInt ≤ c.mid + c.half + c.offset := by
  obtain ⟨lo, hi⟩ := hp
  have hoffset := hc.offset
  cases s with
  | bid =>
    simp only [lower, upper] at lo hi
    omega
  | ask =>
    simp only [lower, upper] at lo hi
    omega

/-- A price in the band is valid. -/
theorem Fits.isValid (hc : c.Fits) (hp : c.InBand s p) : p.isValid = true := by
  unfold Price32.isValid Price32.invalidPrice
  refine bne_iff_ne.mpr fun he => ?_
  have hlow := hc.low
  have hrange := (hc.range hp).1
  rw [he] at hrange
  omega

end OptionOrderGeneratorConfig

namespace OptionOrderGenerator

variable {F ω : Type} {g : OptionOrderGenerator F}

open OptionOrderGeneratorConfig (Fits InBand)

/-- Every live order has its price in the band of its side. -/
def Tracked (g : OptionOrderGenerator F) : Prop :=
  ∀ o ∈ g.liveOrders, g.config.InBand o.side o.price

/-! ## The best prices -/

/-- `_best_bid` is the price of a live bid or the fallback. -/
theorem bestBid_cases (g : OptionOrderGenerator F) :
    (∃ o ∈ g.liveOrders, o.side = .bid ∧ o.price = g.bestBid) ∨
      g.bestBid = ⟨g.config.midPrice.price - g.config.spreadHalfWidth.price⟩ := by
  by_cases h : ∃ o ∈ g.liveOrders, o.side = .bid
  · obtain ⟨o, ho, hs⟩ := h
    exact Or.inl (bestBid_spec ho hs).2
  · have hnil : (g.liveOrders.filter fun o => o.side = .bid) = [] :=
      List.filter_eq_nil_iff.mpr fun o ho hs => h ⟨o, ho, by simpa using hs⟩
    right
    unfold bestBid
    rw [hnil]
    rfl

/-- `_best_ask` is the price of a live ask or the fallback. -/
theorem bestAsk_cases (g : OptionOrderGenerator F) :
    (∃ o ∈ g.liveOrders, o.side = .ask ∧ o.price = g.bestAsk) ∨
      g.bestAsk = ⟨g.config.midPrice.price + g.config.spreadHalfWidth.price⟩ := by
  by_cases h : ∃ o ∈ g.liveOrders, o.side = .ask
  · obtain ⟨o, ho, hs⟩ := h
    exact Or.inl (bestAsk_spec ho hs).2
  · have hnil : (g.liveOrders.filter fun o => o.side = .ask) = [] :=
      List.filter_eq_nil_iff.mpr fun o ho hs => h ⟨o, ho, by simpa using hs⟩
    right
    unfold bestAsk
    rw [hnil]
    rfl

/-- A quote below the mid price. -/
theorem toInt_mid_sub (hc : g.config.Fits) {j : Int32} (h1 : 1 ≤ j)
    (hj : j ≤ g.config.spreadHalfWidth.price) :
    (g.config.midPrice.price - j).toInt = g.config.mid - j.toInt := by
  have h1' : 1 ≤ j.toInt := Int32.le_iff_toInt_le.mp h1
  have hj' : j.toInt ≤ g.config.half := Int32.le_iff_toInt_le.mp hj
  obtain ⟨hhalf, hoffset, -, -, hlow, hhigh⟩ := hc
  refine toInt_sub_of_fits ?_ ?_
  · change _ ≤ g.config.mid - j.toInt
    omega
  · change g.config.mid - j.toInt ≤ _
    omega

/-- A quote above the mid price. -/
theorem toInt_mid_add (hc : g.config.Fits) {j : Int32} (h1 : 1 ≤ j)
    (hj : j ≤ g.config.spreadHalfWidth.price) :
    (g.config.midPrice.price + j).toInt = g.config.mid + j.toInt := by
  have h1' : 1 ≤ j.toInt := Int32.le_iff_toInt_le.mp h1
  have hj' : j.toInt ≤ g.config.half := Int32.le_iff_toInt_le.mp hj
  obtain ⟨hhalf, hoffset, -, -, hlow, hhigh⟩ := hc
  refine toInt_add_of_fits ?_ ?_
  · change _ ≤ g.config.mid + j.toInt
    omega
  · change g.config.mid + j.toInt ≤ _
    omega

theorem one_le_half (hc : g.config.Fits) : 1 ≤ g.config.spreadHalfWidth.price :=
  Int32.le_iff_toInt_le.mpr hc.half

theorem bestBid_inBand (hc : g.config.Fits) (ht : g.Tracked) : g.config.InBand .bid g.bestBid := by
  rcases g.bestBid_cases with ⟨o, ho, hs, hp⟩ | hp
  · rw [← hp, ← hs]
    exact ht o ho
  · have hfall := toInt_mid_sub hc (one_le_half hc) (Int32.le_refl _)
    have hhalf := hc.half
    have hoffset := hc.offset
    rw [hp]
    unfold InBand OptionOrderGeneratorConfig.lower OptionOrderGeneratorConfig.upper
    simp only
    rw [hfall]
    change _ ≤ g.config.mid - g.config.half ∧ g.config.mid - g.config.half ≤ _
    omega

theorem bestAsk_inBand (hc : g.config.Fits) (ht : g.Tracked) : g.config.InBand .ask g.bestAsk := by
  rcases g.bestAsk_cases with ⟨o, ho, hs, hp⟩ | hp
  · rw [← hp, ← hs]
    exact ht o ho
  · have hfall := toInt_mid_add hc (one_le_half hc) (Int32.le_refl _)
    have hhalf := hc.half
    have hoffset := hc.offset
    rw [hp]
    unfold InBand OptionOrderGeneratorConfig.lower OptionOrderGeneratorConfig.upper
    simp only
    rw [hfall]
    change _ ≤ g.config.mid + g.config.half ∧ g.config.mid + g.config.half ≤ _
    omega

/-! ## Generated orders -/

/-- No price computation of the generator overflows. -/
structure NoOverflow (g : OptionOrderGenerator F) : Prop where
  fallbackBid : (g.config.midPrice.price - g.config.spreadHalfWidth.price).toInt =
    g.config.mid - g.config.half
  fallbackAsk : (g.config.midPrice.price + g.config.spreadHalfWidth.price).toInt =
    g.config.mid + g.config.half
  quoteBid : ∀ j : Int32, 1 ≤ j → j ≤ g.config.spreadHalfWidth.price →
    (g.config.midPrice.price - j).toInt = g.config.mid - j.toInt
  quoteAsk : ∀ j : Int32, 1 ≤ j → j ≤ g.config.spreadHalfWidth.price →
    (g.config.midPrice.price + j).toInt = g.config.mid + j.toInt
  aggressorBid : (g.bestAsk.price + g.config.aggressorOffset.price).toInt =
    g.bestAsk.price.toInt + g.config.offset
  aggressorAsk : (g.bestBid.price - g.config.aggressorOffset.price).toInt =
    g.bestBid.price.toInt - g.config.offset

/-- **No overflow** while the live orders are in their bands. -/
theorem noOverflow_of_tracked (hc : g.config.Fits) (ht : g.Tracked) : g.NoOverflow where
  fallbackBid := toInt_mid_sub hc (one_le_half hc) (Int32.le_refl _)
  fallbackAsk := toInt_mid_add hc (one_le_half hc) (Int32.le_refl _)
  quoteBid _ h1 hj := toInt_mid_sub hc h1 hj
  quoteAsk _ h1 hj := toInt_mid_add hc h1 hj
  aggressorBid := by
    obtain ⟨lo, hi⟩ := bestAsk_inBand hc ht
    obtain ⟨-, hoffset, -, -, hlow, hhigh⟩ := hc
    simp only [OptionOrderGeneratorConfig.lower, OptionOrderGeneratorConfig.upper] at lo hi
    refine toInt_add_of_fits ?_ ?_
    · change _ ≤ g.bestAsk.price.toInt + g.config.offset
      omega
    · change g.bestAsk.price.toInt + g.config.offset ≤ _
      omega
  aggressorAsk := by
    obtain ⟨lo, hi⟩ := bestBid_inBand hc ht
    obtain ⟨-, hoffset, -, -, hlow, hhigh⟩ := hc
    simp only [OptionOrderGeneratorConfig.lower, OptionOrderGeneratorConfig.upper] at lo hi
    refine toInt_sub_of_fits ?_ ?_
    · change _ ≤ g.bestBid.price.toInt - g.config.offset
      omega
    · change g.bestBid.price.toInt - g.config.offset ≤ _
      omega

/-- **A quote is in the band of its side**, on that side of the mid price. -/
theorem mmOrder_inBand (hc : g.config.Fits) {j : Int32} (h1 : 1 ≤ j)
    (hj : j ≤ g.config.spreadHalfWidth.price) (s : Side) (qty : UInt32) (now : UInt64) :
    let o := (g.generateMmOrder s j qty now).1
    o.side = s ∧ g.config.InBand s o.price ∧
      (s = .bid → o.price.price.toInt < g.config.mid) ∧
      (s = .ask → g.config.mid < o.price.price.toInt) := by
  have h1' : 1 ≤ j.toInt := Int32.le_iff_toInt_le.mp h1
  have hj' : j.toInt ≤ g.config.half := Int32.le_iff_toInt_le.mp hj
  have hoffset := hc.offset
  unfold generateMmOrder makeOrder InBand
  cases s with
  | bid =>
    simp only [if_true, toInt_mid_sub hc h1 hj, OptionOrderGeneratorConfig.lower,
      OptionOrderGeneratorConfig.upper]
    refine ⟨trivial, by omega, fun _ => by omega, fun h => absurd h (by decide)⟩
  | ask =>
    simp only [reduceCtorEq, if_false, toInt_mid_add hc h1 hj, OptionOrderGeneratorConfig.lower,
      OptionOrderGeneratorConfig.upper]
    refine ⟨trivial, by omega, fun h => absurd h (by decide), fun _ => by omega⟩

/-- **An aggressor is in the band of its side**: it starts from the band of the other one. -/
theorem aggressorOrder_inBand (hc : g.config.Fits) (ht : g.Tracked) (s : Side) (qty : UInt32)
    (now : UInt64) :
    let o := (g.generateAggressorOrder s qty now).1
    o.side = s ∧ g.config.InBand s o.price := by
  have hno := noOverflow_of_tracked hc ht
  unfold generateAggressorOrder makeOrder InBand
  cases s with
  | bid =>
    obtain ⟨lo, hi⟩ := bestAsk_inBand hc ht
    simp only [if_true, hno.aggressorBid, OptionOrderGeneratorConfig.lower,
      OptionOrderGeneratorConfig.upper] at lo hi ⊢
    exact ⟨trivial, by omega, by omega⟩
  | ask =>
    obtain ⟨lo, hi⟩ := bestBid_inBand hc ht
    simp only [reduceCtorEq, if_false, hno.aggressorAsk, OptionOrderGeneratorConfig.lower,
      OptionOrderGeneratorConfig.upper] at lo hi ⊢
    exact ⟨trivial, by omega, by omega⟩

/-! ## Callbacks and notifications -/

/-- The callbacks change the live orders through `notify_fill` only, and leave the configuration. -/
structure Notifies (fns : Wiring ω F) : Prop where
  add : ∀ order w, (fns.addFn order w).2.2.config = w.2.config ∧
    ∃ ids : List UInt32, (fns.addFn order w).2.2.liveOrders = (ids.foldl notifyFill w.2).liveOrders
  remove : ∀ id w, (fns.removeFn id w).2.2.config = w.2.config ∧
    ∃ ids : List UInt32, (fns.removeFn id w).2.2.liveOrders = (ids.foldl notifyFill w.2).liveOrders

theorem untrack_sublist (g : OptionOrderGenerator F) (id : UInt32) :
    (g.untrack id).liveOrders.Sublist g.liveOrders := by
  rw [untrack_liveOrders]
  exact List.eraseIdx_sublist _ _

@[simp] theorem untrack_config (g : OptionOrderGenerator F) (id : UInt32) :
    (g.untrack id).config = g.config := by
  unfold untrack
  simp only
  split <;> rfl

/-- What notifications leave of a generator. -/
theorem foldl_notifyFill (ids : List UInt32) (g : OptionOrderGenerator F) :
    (ids.foldl notifyFill g).config = g.config ∧
      (ids.foldl notifyFill g).liveOrders.Sublist g.liveOrders := by
  induction ids generalizing g with
  | nil => exact ⟨rfl, List.Sublist.refl _⟩
  | cons id ids ih =>
    obtain ⟨hconfig, hlive⟩ := ih (g.notifyFill id)
    exact ⟨hconfig.trans (untrack_config g id), hlive.trans (untrack_sublist g id)⟩

/-- Fewer live orders are in their bands too. -/
theorem Tracked.sublist {g' : OptionOrderGenerator F} (ht : g.Tracked)
    (hconfig : g'.config = g.config) (hlive : g'.liveOrders.Sublist g.liveOrders) :
    g'.Tracked := by
  intro o ho
  rw [hconfig]
  exact ht o (hlive.subset ho)

/-- The callbacks call `notify_fill` and do nothing else to the generator. -/
structure OnlyNotifies (fns : Wiring ω F) : Prop where
  add : ∀ order w, ∃ ids : List UInt32, (fns.addFn order w).2.2 = ids.foldl notifyFill w.2
  remove : ∀ id w, ∃ ids : List UInt32, (fns.removeFn id w).2.2 = ids.foldl notifyFill w.2

theorem OnlyNotifies.notifies {fns : Wiring ω F} (h : OnlyNotifies fns) : Notifies fns where
  add order w := by
    obtain ⟨ids, hids⟩ := h.add order w
    exact ⟨hids ▸ (foldl_notifyFill ids w.2).1, ids, congrArg _ hids⟩
  remove id w := by
    obtain ⟨ids, hids⟩ := h.remove id w
    exact ⟨hids ▸ (foldl_notifyFill ids w.2).1, ids, congrArg _ hids⟩

/-- **The callbacks of `generator_main` notify fills and nothing else**, whatever the book. -/
theorem wiring_onlyNotifies {SIZE : ℕ} :
    OnlyNotifies (wiring : Wiring (OptionOrderBook SIZE) F) where
  add order w := by
    obtain ⟨b, g⟩ := w
    have hmatch : ∃ ids : List UInt32,
        (OptionOrderBook.tryMatch (observe (some notifier)) order (b, g)).world.2 =
          ids.foldl notifyFill g := by
      unfold OptionOrderBook.tryMatch
      simp only [OptionOrderBook.removeFilled_observe]
      exact ⟨_, notified_notifier _ _ g⟩
    have hadd : ∃ ids : List UInt32,
        (OptionOrderBook.add (observe (some notifier)) order (b, g)).2.2 =
          ids.foldl notifyFill g := by
      unfold OptionOrderBook.add
      simp only
      split
      · exact ⟨[], rfl⟩
      · split
        · exact hmatch
        · split
          · exact hmatch
          · split
            · exact hmatch
            · exact hmatch
    exact hadd
  remove id w := ⟨[], rfl⟩

theorem wiring_notifies {SIZE : ℕ} :
    Notifies (wiring : Wiring (OptionOrderBook SIZE) F) := wiring_onlyNotifies.notifies

/-! ## Every run -/

variable {fns : Wiring ω F} {c : OptionOrderGeneratorConfig F} {s : Loop ω F}

/-- The configuration stays, and every order that is tracked or about to be submitted is in the
band of its side. -/
structure Banded (c : OptionOrderGeneratorConfig F) (s : Loop ω F) : Prop where
  config : s.world.2.config = c
  tracked : s.world.2.Tracked
  pending : ∀ o ∈ s.pending, c.InBand o.side o.price

/-- **A submission keeps the bands.** -/
theorem Banded.submit (hfns : Notifies fns) (hb : Banded c s) {o : Order} {rest : List Order}
    (hp : s.pending = o :: rest) : Banded c ⟨submit fns o s.world, rest⟩ := by
  obtain ⟨rfl, ht, hpending⟩ := hb
  rw [hp] at hpending
  obtain ⟨hconfig, ids, hids⟩ := hfns.add o s.world
  have ht' := ht.sublist hconfig (hids ▸ (foldl_notifyFill ids s.world.2).2)
  have hrest : ∀ x ∈ rest, s.world.2.config.InBand x.side x.price :=
    fun x hx => hpending x (List.mem_cons_of_mem _ hx)
  unfold OptionOrderGenerator.submit
  rcases hadd : fns.addFn o s.world with ⟨added, x, g'⟩
  rw [hadd] at hconfig ht'
  cases added with
  | false => exact ⟨hconfig, ht', hrest⟩
  | true =>
    refine ⟨hconfig, fun y hy => ?_, hrest⟩
    rcases List.mem_append.mp hy with hy | hy
    · exact ht' y hy
    · rw [List.mem_singleton.mp hy]
      exact hconfig ▸ hpending o List.mem_cons_self

/-- A notification keeps the bands. -/
theorem Banded.notify (hb : Banded c s) (id : UInt32) (x : ω) :
    Banded c ⟨(x, s.world.2.notifyFill id), s.pending⟩ :=
  ⟨(untrack_config _ id).trans hb.config,
    hb.tracked.sublist (untrack_config _ id) (untrack_sublist _ id), hb.pending⟩

/-- A step of the loop, or a fill notified between two of them. -/
inductive Event (F : Type) where
  | act (a : Act F)
  | notify (id : UInt32)

section Run

variable [LT F] [DecidableLT F] [Add F]

/-- `run`, interleaved with fill notifications. -/
def notifiedRun (fns : Wiring ω F) (w0 : ω × OptionOrderGenerator F) :
    LTS (Loop ω F) (Event F) where
  init := (run fns w0).init
  step s e s' := match e with
    | .act a => (run fns w0).step s a s'
    | .notify id => ∃ x, s' = ⟨(x, s.world.2.notifyFill id), s.pending⟩

/-- **A pass up to its submissions keeps the bands.** -/
theorem Banded.pass (hfns : Notifies fns) (hc : c.Fits) (hb : Banded c s) {d : Draws F}
    (hd : s.world.2.Allowed d) : Banded c (pass fns d s.world) := by
  obtain ⟨rfl, ht, -⟩ := hb
  unfold OptionOrderGenerator.pass
  simp only
  split
  · split
    · rename_i id _
      obtain ⟨hremoved, ids, hids⟩ := hfns.remove id s.world
      have hconfig : (cancel fns id s.world).2.config = s.world.2.config :=
        (untrack_config _ id).trans hremoved
      have hlive : (cancel fns id s.world).2.liveOrders.Sublist s.world.2.liveOrders :=
        (untrack_sublist _ id).trans (hids ▸ (foldl_notifyFill ids s.world.2).2)
      exact ⟨hconfig, ht.sublist hconfig hlive, fun o ho => absurd ho List.not_mem_nil⟩
    · exact ⟨rfl, ht, fun o ho => absurd ho List.not_mem_nil⟩
  · split
    · refine ⟨rfl, ht, fun o ho => ?_⟩
      obtain ⟨hside, hband⟩ := aggressorOrder_inBand hc ht (if d.side = 0 then .bid else .ask)
        d.aggressorQty d.now
      rw [List.mem_singleton.mp ho, hside]
      exact hband
    · obtain ⟨hsb, hbb, -⟩ := mmOrder_inBand hc hd.bidJitter.1 hd.bidJitter.2 .bid d.bidQty d.now
      have hnext : (s.world.2.generateMmOrder .bid d.bidJitter d.bidQty d.now).2.config =
        s.world.2.config := rfl
      obtain ⟨hsa, hba, -⟩ := mmOrder_inBand
        (g := (s.world.2.generateMmOrder .bid d.bidJitter d.bidQty d.now).2) hc
        hd.askJitter.1 hd.askJitter.2 .ask d.askQty d.now'
      refine ⟨rfl, ht, fun o ho => ?_⟩
      rcases List.mem_cons.mp ho with rfl | ho
      · rw [hsb]
        exact hbb
      · rw [List.mem_singleton.mp ho, hsa]
        exact hba

/-- A run without notifications is one of these. -/
theorem notifiedRun_of_run {w0 : ω × OptionOrderGenerator F} (hr : (run fns w0).Reachable s) :
    (notifiedRun fns w0).Reachable s :=
  hr.invariant (fun _ h0 => .start h0) fun _ a _ hr hs => hr.next (e := .act a) hs

/-- **Every state of every run is banded.** -/
theorem run_banded (hfns : Notifies fns) (hc : c.Fits) {x : ω} {option : Structs.Option}
    (hr : (notifiedRun fns (x, new option c)).Reachable s) : Banded c s := by
  refine hr.invariant (fun s h0 => ?_) fun s e s' hb hs => ?_
  · have h0' : s = ⟨(x, new option c), []⟩ := h0
    rw [h0']
    exact ⟨rfl, fun o ho => absurd ho List.not_mem_nil, fun o ho => absurd ho List.not_mem_nil⟩
  · cases e with
    | act a =>
      cases a with
      | pass d =>
        obtain ⟨-, hd, rfl⟩ := hs
        exact hb.pass hfns hc hd
      | submit o =>
        obtain ⟨rest, hp, rfl⟩ := hs
        exact hb.submit hfns hp
    | notify id =>
      obtain ⟨x, rfl⟩ := hs
      exact hb.notify id x

/-- What is claimed of the prices in a state of the loop with configuration `c`. -/
structure PricesInBand (c : OptionOrderGeneratorConfig F) (s : Loop ω F) : Prop where
  config : s.world.2.config = c
  /-- The orders tracked, and those generated and not yet submitted. -/
  orders : ∀ o ∈ s.world.2.liveOrders ++ s.pending,
    c.InBand o.side o.price ∧ o.price.isValid = true
  noOverflow : s.world.2.NoOverflow
  /-- The aggressors that may be generated next. -/
  aggressor : ∀ side qty now, let o := (s.world.2.generateAggressorOrder side qty now).1
    o.side = side ∧ c.InBand side o.price ∧ o.price.isValid = true
  /-- The quotes that may be generated next. -/
  quotes : ∀ d, s.world.2.Allowed d →
    let (bid, g) := s.world.2.generateMmOrder .bid d.bidJitter d.bidQty d.now
    let ask := (g.generateMmOrder .ask d.askJitter d.askQty d.now').1
    (bid.side = .bid ∧ c.InBand .bid bid.price ∧ bid.price.isValid = true) ∧
      (ask.side = .ask ∧ c.InBand .ask ask.price ∧ ask.price.isValid = true) ∧
      bid.price < ask.price

/-- **Prices stay in fixed bands and never overflow**, in every state of every run, whatever the
callbacks return, whichever fills are notified and whatever is drawn. -/
theorem prices_in_band (hfns : Notifies fns) (hc : c.Fits) {x : ω} {option : Structs.Option}
    (hr : (notifiedRun fns (x, new option c)).Reachable s) : PricesInBand c s := by
  obtain ⟨rfl, ht, hpending⟩ := run_banded hfns hc hr
  refine ⟨rfl, fun o ho => ?_, noOverflow_of_tracked hc ht, fun side qty now => ?_, fun d hd => ?_⟩
  · have hband : s.world.2.config.InBand o.side o.price := by
      rcases List.mem_append.mp ho with ho | ho
      · exact ht o ho
      · exact hpending o ho
    exact ⟨hband, hc.isValid hband⟩
  · obtain ⟨hside, hband⟩ := aggressorOrder_inBand hc ht side qty now
    exact ⟨hside, hband, hc.isValid hband⟩
  · obtain ⟨hsb, hbb, hbelow, -⟩ := mmOrder_inBand hc hd.bidJitter.1 hd.bidJitter.2 .bid d.bidQty
      d.now
    obtain ⟨hsa, hba, -, habove⟩ := mmOrder_inBand
      (g := (s.world.2.generateMmOrder .bid d.bidJitter d.bidQty d.now).2) hc
      hd.askJitter.1 hd.askJitter.2 .ask d.askQty d.now'
    exact ⟨⟨hsb, hbb, hc.isValid hbb⟩, ⟨hsa, hba, hc.isValid hba⟩, (hbelow rfl).trans (habove rfl)⟩

end Run

/-- A bid and an ask around the mid price, a fill of the bid, then a bid that crosses. -/
theorem prices_in_band_two :
    let option : Structs.Option := ⟨⟨10000⟩, Vector.replicate 6 0, 26, 6, 20, 1⟩
    let c : OptionOrderGeneratorConfig ℚ := ⟨⟨2000⟩, ⟨600⟩, ⟨400⟩, 10, 20, 1 / 5, 0⟩
    let quote : Draws ℚ := ⟨1 / 2, 0, 0, 1, 100, 5, 200, 7, 0, 0⟩
    let cross : Draws ℚ := ⟨1 / 10, 0, 0, 9, 1, 1, 1, 1, 0, 0⟩
    let w := iteration wiring quote ((OptionOrderBook.empty : OptionOrderBook 10), new option c)
    let s := pass wiring cross (w.1, w.2.notifyFill 1)
    s.world.2.liveOrders.map Order.price = [⟨2200⟩] ∧ s.pending.map Order.price = [⟨2600⟩] ∧
      PricesInBand c s := by
  intro option c quote cross w s
  let w0 := ((OptionOrderBook.empty : OptionOrderBook 10), new option c)
  have hq : w0.2.Allowed quote := ⟨List.length_pos_iff.mpr, by decide, by decide, by decide,
    by decide, by decide, by decide⟩
  have hx : (w.2.notifyFill 1).Allowed cross := ⟨List.length_pos_iff.mpr, by decide,
    by decide +kernel, by decide +kernel, by decide +kernel, by decide +kernel, by decide +kernel⟩
  have h0 : (run wiring w0).Reachable ⟨w0, []⟩ := .start rfl
  have h1 := notifiedRun_of_run (run_iteration h0 hq)
  have h2 : (notifiedRun wiring w0).Reachable ⟨(w.1, w.2.notifyFill 1), []⟩ :=
    h1.next (e := .notify 1) ⟨w.1, rfl⟩
  have hr : (notifiedRun wiring w0).Reachable s :=
    h2.next (e := .act (.pass cross)) ⟨rfl, hx, rfl⟩
  have hc : c.Fits := ⟨by decide, by decide, by decide, by decide, by decide, by decide⟩
  exact ⟨by decide +kernel, by decide +kernel, prices_in_band wiring_notifies hc hr⟩

end OptionOrderGenerator

end Mms
