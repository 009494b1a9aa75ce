import Mms.Exchange.PriceBand

/-!
# The ids of generated orders

`_make_order` takes the next value of a 32-bit counter and never looks at the live orders. After
2^32 orders the counter has gone round, and the id of an order that is still live is given again.

* `Distinct`: the ids a pass gives differ from the ids of all live orders.
* `loggedRun`: the runs of the generator, with all orders generated so far written down.
* `ids_fresh_iff`: the ids are distinct throughout a run iff no order is live when the 2^32nd order
  after it is generated.
* `live_id_given_again`: quotes that fill the book of `generator_main` and are never traded.
-/

namespace Mms

open Lib

namespace OptionOrderGenerator

variable {F ω : Type}

/-! ## A counter that wraps -/

/-- `ids` are the last values of a counter that stands at `next`, latest first. -/
def Counted : UInt32 → List UInt32 → Prop
  | _, [] => True
  | next, id :: ids => id = next ∧ Counted (next - 1) ids

theorem Counted.get {ids : List UInt32} {next : UInt32} (h : Counted next ids) {k : ℕ}
    {id : UInt32} (hk : ids[k]? = some id) : id = next - UInt32.ofNat k := by
  induction ids generalizing next k with
  | nil => exact absurd hk (by simp)
  | cons j ids ih =>
    cases k with
    | zero =>
      rw [List.getElem?_cons_zero, Option.some.injEq] at hk
      rw [← hk, h.1]
      exact (UInt32.sub_zero next).symm
    | succ k =>
      rw [List.getElem?_cons_succ] at hk
      have hone : UInt32.ofNat 1 = 1 := rfl
      rw [ih h.2 hk, UInt32.ofNat_add, hone]
      grind

/-- The counter is stepped `n` times more. -/
theorem Counted.steps {ids : List UInt32} {next : UInt32} (h : Counted next ids) (n : ℕ) :
    Counted (next + UInt32.ofNat n)
      (((List.range n).map fun i => next + UInt32.ofNat (i + 1)).reverse ++ ids) := by
  induction n with
  | zero =>
    have h0 : next + UInt32.ofNat 0 = next := UInt32.add_zero next
    rw [h0]
    exact h
  | succ n ih =>
    have hsub : next + UInt32.ofNat (n + 1) - 1 = next + UInt32.ofNat n := by
      rw [UInt32.ofNat_add, ← UInt32.add_assoc]
      exact UInt32.add_sub_cancel _ _
    rw [List.range_succ, List.map_append, List.reverse_append]
    exact ⟨rfl, hsub ▸ ih⟩

theorem mem_latest {log : List Order} {n : ℕ} {o : Order} :
    o ∈ log.take n ↔ ∃ k < n, log[k]? = some o := by
  rw [List.mem_iff_getElem?]
  refine exists_congr fun k => ?_
  by_cases hk : k < n
  · rw [List.getElem?_take_of_lt hk]
    exact (and_iff_right hk).symm
  · rw [List.getElem?_take_eq_none (Nat.le_of_not_lt hk)]
    simp [hk]

/-- The next `i`-th value of the counter is its last `k`-th one only when the counter has gone
round in between. -/
theorem wraps_of_eq {next : UInt32} {i k : ℕ} (hk : k < 2 ^ 32) (hi : i < 2 ^ 32)
    (he : next + UInt32.ofNat (i + 1) = next - UInt32.ofNat k) : i + 1 + k = 2 ^ 32 := by
  have hsum : UInt32.ofNat (i + 1 + k) = 0 := by
    rw [UInt32.ofNat_add]
    grind
  have hmod : (i + 1 + k) % 2 ^ 32 = 0 := congrArg UInt32.toNat hsum
  omega

/-- **Which ids come again.** Of the last 2^32 orders, the ones the next `n` ids are not given to
again are the last 2^32 - n. -/
theorem Counted.mem_latest_iff {log : List Order} {next : UInt32}
    (h : Counted next (log.map Order.id)) {n : ℕ} (hn : n ≤ 2 ^ 32) {o : Order}
    (ho : o ∈ log.take (2 ^ 32)) :
    o ∈ log.take (2 ^ 32 - n) ↔ ∀ i < n, next + UInt32.ofNat (i + 1) ≠ o.id := by
  have hid : ∀ k, log[k]? = some o → o.id = next - UInt32.ofNat k := by
    intro k hk
    refine h.get ?_
    rw [List.getElem?_map, hk]
    rfl
  constructor
  · intro hmem i hi he
    obtain ⟨k, hk, hget⟩ := mem_latest.mp hmem
    have := wraps_of_eq (by omega) (by omega) (he.trans (hid k hget))
    omega
  · intro hne
    obtain ⟨k, hk, hget⟩ := mem_latest.mp ho
    refine mem_latest.mpr ⟨k, ?_, hget⟩
    by_contra hlt
    -- the counter comes round to this id within `n` steps
    refine hne (2 ^ 32 - 1 - k) (by omega) ?_
    have hround : UInt32.ofNat (2 ^ 32 - 1 - k + 1 + k) = 0 := by
      have hsum : 2 ^ 32 - 1 - k + 1 + k = 2 ^ 32 := by omega
      rw [hsum]
      rfl
    rw [hid k hget]
    rw [UInt32.ofNat_add] at hround
    grind

/-! ## What a step does to the counter and the live orders -/

@[simp] theorem untrack_nextId (g : OptionOrderGenerator F) (id : UInt32) :
    (g.untrack id).nextId = g.nextId := by
  unfold untrack
  simp only
  split <;> rfl

/-- Notifications leave the counter alone, and no new order live. -/
theorem notified_frame {g g' : OptionOrderGenerator F}
    (h : ∃ ids : List UInt32, g' = ids.foldl notifyFill g) :
    g'.nextId = g.nextId ∧ g'.liveOrders.Sublist g.liveOrders := by
  obtain ⟨ids, rfl⟩ := h
  refine ⟨?_, (foldl_notifyFill ids g).2⟩
  induction ids generalizing g with
  | nil => rfl
  | cons id ids ih => exact ih.trans (untrack_nextId g id)

/-- A submission leaves the counter alone, and makes at most the submitted order live. -/
theorem submit_frame {fns : Wiring ω F} (hfns : OnlyNotifies fns) (o : Order)
    (w : ω × OptionOrderGenerator F) :
    (submit fns o w).2.nextId = w.2.nextId ∧
      ∀ l ∈ (submit fns o w).2.liveOrders, l ∈ w.2.liveOrders ∨ l = o := by
  obtain ⟨hnext, hlive⟩ := notified_frame (hfns.add o w)
  unfold submit
  rcases hadd : fns.addFn o w with ⟨added, y, g⟩
  rw [hadd] at hnext hlive
  cases added with
  | false => exact ⟨hnext, fun l hl => Or.inl (hlive.subset hl)⟩
  | true =>
    refine ⟨hnext, fun l hl => ?_⟩
    rcases List.mem_append.mp hl with hl | hl
    · exact Or.inl (hlive.subset hl)
    · exact Or.inr (List.mem_singleton.mp hl)

/-! ## The generator of `generator_main` -/

/-- `opt` of `generator_main`. -/
def mainOption : Structs.Option := ⟨⟨10000⟩, spcx, 26, 6, 20, 1⟩

/-- `cfg` of `generator_main`. -/
def mainConfig : OptionOrderGeneratorConfig ℚ := ⟨⟨2000⟩, ⟨600⟩, ⟨400⟩, 10, 20, 1 / 5, 0⟩

theorem mainConfig_fits : mainConfig.Fits :=
  ⟨by decide, by decide, by decide, by decide, by decide, by decide⟩

/-- A pass that quotes 1900 and 2200. -/
def quotePass : Draws ℚ := ⟨1 / 2, 0, 0, 1, 100, 5, 200, 7, 0, 0⟩

theorem quotePass_allowed {g : OptionOrderGenerator ℚ} (hg : g.config = mainConfig) :
    g.Allowed quotePass :=
  ⟨List.length_pos_iff.mpr, by decide, hg ▸ by decide, hg ▸ by decide, hg ▸ by decide,
    hg ▸ by decide, hg ▸ by decide⟩

/-! ## What a pass generates -/

section Run

variable [LT F] [DecidableLT F] [Add F] {fns : Wiring ω F} {w0 : ω × OptionOrderGenerator F}

/-- **The orders of a pass take the next ids**, and no other order becomes live. -/
theorem pass_generates (hfns : OnlyNotifies fns) (d : Draws F) (w : ω × OptionOrderGenerator F) :
    let p := pass fns d w
    p.pending.map Order.id =
        (List.range p.pending.length).map (fun i => w.2.nextId + UInt32.ofNat (i + 1)) ∧
      p.world.2.nextId = w.2.nextId + UInt32.ofNat p.pending.length ∧
      p.world.2.liveOrders.Sublist w.2.liveOrders ∧ p.pending.length ≤ 2 := by
  have hzero : w.2.nextId + UInt32.ofNat 0 = w.2.nextId := UInt32.add_zero _
  unfold pass
  simp only
  split
  · split
    · rename_i id _
      obtain ⟨hnext, hlive⟩ := notified_frame (hfns.remove id w)
      refine ⟨rfl, ?_, (untrack_sublist _ id).trans hlive, Nat.zero_le 2⟩
      exact (untrack_nextId _ id).trans (hnext.trans hzero.symm)
    · exact ⟨rfl, hzero.symm, List.Sublist.refl _, Nat.zero_le 2⟩
  · split
    · exact ⟨rfl, rfl, List.Sublist.refl _, Nat.le_succ 1⟩
    · refine ⟨?_, ?_, List.Sublist.refl _, Nat.le_refl 2⟩
      · exact congrArg (fun id => [w.2.nextId + 1, id]) (UInt32.add_assoc w.2.nextId 1 1)
      · exact UInt32.add_assoc w.2.nextId 1 1

/-! ## Runs with the generated orders written down -/

/-- The ids a pass gives differ from the ids of the live orders. -/
def Distinct (fns : Wiring ω F) (d : Draws F) (w : ω × OptionOrderGenerator F) : Prop :=
  ∀ o ∈ (pass fns d w).pending, ∀ l ∈ w.2.liveOrders, o.id ≠ l.id

/-- The runs of `notifiedRun`, with the orders generated so far, latest first. -/
def loggedRun (fns : Wiring ω F) (w0 : ω × OptionOrderGenerator F) :
    LTS (Loop ω F × List Order) (Event F) where
  init x := (notifiedRun fns w0).init x.1 ∧ x.2 = []
  step x e x' := (notifiedRun fns w0).step x.1 e x'.1 ∧
    x'.2 = match e with
      | .act (.pass _) => x'.1.pending.reverse ++ x.2
      | .act (.submit _) => x.2
      | .notify _ => x.2

/-- Writing down restricts nothing. -/
theorem loggedRun_of_notifiedRun {h : List (Event F)} {s : Loop ω F}
    (hr : (notifiedRun fns w0).Run h s) : ∃ log, (loggedRun fns w0).Run h (s, log) := by
  induction hr with
  | start h0 => exact ⟨[], .start ⟨h0, rfl⟩⟩
  | @next h s s' e hr hs ih =>
    obtain ⟨log, hlog⟩ := ih
    let log' := match e with
      | .act (.pass _) => s'.pending.reverse ++ log
      | .act (.submit _) => log
      | .notify _ => log
    have hlogged : (loggedRun fns w0).Run (e :: h) (s', log') := hlog.next ⟨hs, rfl⟩
    exact ⟨log', hlogged⟩

/-- The step gives no id of a live order. -/
def Fresh (fns : Wiring ω F) (x : Loop ω F × List Order) : Event F → Prop
  | .act (.pass d) => Distinct fns d x.1.world
  | _ => True

/-- The step generates no order that is the 2^32nd after one still live: when it generates `n`
orders, the live ones are among the last 2^32 - n before it. -/
def Young (fns : Wiring ω F) (x : Loop ω F × List Order) : Event F → Prop
  | .act (.pass d) => ∀ l ∈ x.1.world.2.liveOrders,
      l ∈ x.2.take (2 ^ 32 - (pass fns d x.1.world).pending.length)
  | _ => True

/-- The log counts the ids, and what is live or about to be submitted is in its last 2^32. -/
structure Logged (x : Loop ω F × List Order) : Prop where
  counted : Counted x.1.world.2.nextId (x.2.map Order.id)
  recent : ∀ o ∈ x.1.world.2.liveOrders ++ x.1.pending, o ∈ x.2.take (2 ^ 32)

/-- **Giving new ids and having young orders is the same**, as long as it has been so. -/
theorem Logged.fresh_iff_young (hfns : OnlyNotifies fns) {x : Loop ω F × List Order}
    (hx : Logged x) (e : Event F) : Fresh fns x e ↔ Young fns x e := by
  cases e with
  | notify id => exact Iff.rfl
  | act a =>
    cases a with
    | submit o => exact Iff.rfl
    | pass d =>
      obtain ⟨hids, -, -, hlen⟩ := pass_generates hfns d x.1.world
      have hmem : ∀ P : UInt32 → Prop, (∀ o ∈ (pass fns d x.1.world).pending, P o.id) ↔
          ∀ i < (pass fns d x.1.world).pending.length,
            P (x.1.world.2.nextId + UInt32.ofNat (i + 1)) := by
        intro P
        rw [← List.forall_mem_map (f := Order.id), hids, List.forall_mem_map]
        simp only [List.mem_range]
      have hdistinct : Fresh fns x (.act (.pass d)) ↔ ∀ l ∈ x.1.world.2.liveOrders,
          ∀ o ∈ (pass fns d x.1.world).pending, o.id ≠ l.id :=
        ⟨fun h l hl o ho => h o ho l hl, fun h o ho l hl => h l hl o ho⟩
      rw [hdistinct]
      refine forall₂_congr fun l hl => ?_
      rw [hmem fun id => id ≠ l.id]
      exact (hx.counted.mem_latest_iff (by omega)
        (hx.recent l (List.mem_append_left _ hl))).symm

/-- **A step that generates no 2^32nd order keeps the log.** -/
theorem Logged.step (hfns : OnlyNotifies fns) {x x' : Loop ω F × List Order} {e : Event F}
    (hx : Logged x) (hy : Young fns x e) (hs : (loggedRun fns w0).step x e x') : Logged x' := by
  obtain ⟨hstep, hlog⟩ := hs
  obtain ⟨s', log'⟩ := x'
  cases e with
  | notify id =>
    obtain ⟨y, rfl⟩ := hstep
    obtain rfl : log' = x.2 := hlog
    refine ⟨?_, fun o ho => hx.recent o ?_⟩
    · exact (untrack_nextId x.1.world.2 id).symm ▸ hx.counted
    · exact ((untrack_sublist _ id).append (List.Sublist.refl _)).subset ho
  | act a =>
    cases a with
    | submit o =>
      obtain ⟨rest, hp, rfl⟩ := hstep
      obtain rfl : log' = x.2 := hlog
      obtain ⟨hnext, hlive⟩ := submit_frame hfns o x.1.world
      refine ⟨hnext.symm ▸ hx.counted, fun l hl => hx.recent l ?_⟩
      rw [hp]
      rcases List.mem_append.mp hl with hl | hl
      · rcases hlive l hl with hl | rfl
        · exact List.mem_append_left _ hl
        · exact List.mem_append_right _ List.mem_cons_self
      · exact List.mem_append_right _ (List.mem_cons_of_mem _ hl)
    | pass d =>
      obtain ⟨-, -, rfl⟩ := hstep
      obtain rfl : log' = (pass fns d x.1.world).pending.reverse ++ x.2 := hlog
      obtain ⟨hids, hnext, hlive, hlen⟩ := pass_generates hfns d x.1.world
      refine ⟨?_, fun l hl => ?_⟩
      · simp only [List.map_append, List.map_reverse, hids, hnext]
        exact hx.counted.steps _
      · rw [List.take_append, List.length_reverse, List.mem_append]
        rcases List.mem_append.mp hl with hl | hl
        · exact Or.inr (hy l (hlive.subset hl))
        · left
          rw [List.take_of_length_le (by rw [List.length_reverse]; omega)]
          exact List.mem_reverse.mpr hl

/-- **When ids never collide with a live order**: throughout a run no pass gives the id of a live
order iff throughout it no order is live when the 2^32nd one after it is generated. -/
theorem ids_fresh_iff (hfns : OnlyNotifies fns) {y : ω} {option : Structs.Option}
    {c : OptionOrderGeneratorConfig F} {h : List (Event F)} {x : Loop ω F × List Order} :
    ((loggedRun fns (y, new option c)).restrict (Fresh fns)).Run h x ↔
      ((loggedRun fns (y, new option c)).restrict (Young fns)).Run h x := by
  refine LTS.Run.restrict_congr (I := Logged) (fun x h0 => ?_) (fun x e x' hx hf hs => ?_)
    fun x e _ hx _ => hx.fresh_iff_young hfns e
  · obtain ⟨s, log⟩ := x
    obtain ⟨h0, hlog⟩ := h0
    have h0' : s = ⟨(y, new option c), []⟩ := h0
    have hlog' : log = [] := hlog
    rw [h0', hlog']
    exact ⟨trivial, fun o ho => absurd ho List.not_mem_nil⟩
  · exact hx.step hfns ((hx.fresh_iff_young hfns e).mp hf) hs

end Run

/-- The second pass of `generator_main` gives new ids while the orders of the first are live. -/
theorem ids_fresh_iff_second :
    let w : OptionOrderBook 10 × OptionOrderGenerator ℚ :=
      (OptionOrderBook.empty, new mainOption mainConfig)
    let s := pass wiring quotePass w
    let w' := iteration wiring quotePass w
    let s' := pass wiring quotePass w'
    w'.2.liveOrders = s.pending ∧ s.pending.map Order.id = [1, 2] ∧
      s'.pending.map Order.id = [3, 4] ∧
      ∃ bid ask, ((loggedRun wiring w).restrict (Fresh wiring)).Run
        [.act (.pass quotePass), .act (.submit ask), .act (.submit bid), .act (.pass quotePass)]
        (s', s'.pending.reverse ++ s.pending.reverse) := by
  intro w s w' s'
  let bid := (w.2.generateMmOrder .bid 100 5 0).1
  let ask := ((w.2.generateMmOrder .bid 100 5 0).2.generateMmOrder .ask 200 7 0).1
  have hpending : s.pending = [bid, ask] := by decide +kernel
  have hw' : w' = submit wiring ask (submit wiring bid s.world) := by
    show s.pending.foldl (fun w order => submit wiring order w) s.world = _
    rw [hpending]
    rfl
  have hlive : w'.2.liveOrders = s.pending := by decide +kernel
  have hr := run_iteration (.start rfl : (run wiring w).Reachable ⟨w, []⟩) (quotePass_allowed rfl)
  have hconfig : w'.2.config = mainConfig :=
    (run_banded wiring_notifies mainConfig_fits (notifiedRun_of_run hr)).config
  refine ⟨hlive, by decide +kernel, by decide +kernel, bid, ask, ?_⟩
  refine (ids_fresh_iff wiring_onlyNotifies).mpr ?_
  have h0 : ((loggedRun wiring w).restrict (Young wiring)).Run [] (⟨w, []⟩, []) :=
    .start ⟨rfl, rfl⟩
  have h1 : ((loggedRun wiring w).restrict (Young wiring)).Run [.act (.pass quotePass)]
      (s, s.pending.reverse) :=
    h0.next ⟨fun l hl => absurd hl List.not_mem_nil, ⟨rfl, quotePass_allowed rfl, rfl⟩,
      (List.append_nil _).symm⟩
  have h2 : ((loggedRun wiring w).restrict (Young wiring)).Run
      [.act (.submit bid), .act (.pass quotePass)]
      (⟨submit wiring bid s.world, [ask]⟩, s.pending.reverse) :=
    h1.next ⟨trivial, ⟨[ask], hpending, rfl⟩, rfl⟩
  have h3 : ((loggedRun wiring w).restrict (Young wiring)).Run
      [.act (.submit ask), .act (.submit bid), .act (.pass quotePass)]
      (⟨w', []⟩, s.pending.reverse) :=
    h2.next ⟨trivial, ⟨[], rfl, by rw [hw']⟩, rfl⟩
  refine h3.next ⟨fun l hl => ?_, ⟨rfl, quotePass_allowed hconfig, rfl⟩, rfl⟩
  have hlen := (pass_generates wiring_onlyNotifies quotePass w').2.2.2
  show l ∈ s.pending.reverse.take (2 ^ 32 - (pass wiring quotePass w').pending.length)
  rw [List.take_of_length_le, List.mem_reverse, ← hlive]
  · exact hl
  · rw [List.length_reverse, hpending, List.length_cons, List.length_singleton]
    omega

/-! ## The counter comes round -/

/-- The book and the generator of `generator_main` after `n` such passes. -/
def quoted (n : ℕ) : OptionOrderBook 10 × OptionOrderGenerator ℚ :=
  (iteration wiring quotePass)^[n] (OptionOrderBook.empty, new mainOption mainConfig)

theorem quoted_reachable (n : ℕ) :
    (run wiring (OptionOrderBook.empty, new mainOption mainConfig)).Reachable ⟨quoted n, []⟩ ∧
      (quoted n).2.config = mainConfig := by
  induction n with
  | zero => exact ⟨.start rfl, rfl⟩
  | succ n ih =>
    have hr := run_iteration ih.1 (quotePass_allowed ih.2)
    rw [quoted, Function.iterate_succ_apply', ← quoted]
    exact ⟨hr, (run_banded wiring_notifies mainConfig_fits (notifiedRun_of_run hr)).config⟩

/-- The generator with its counter at `id`. -/
def standing (g : OptionOrderGenerator F) (id : UInt32) : OptionOrderGenerator F :=
  { g with nextId := id }

/-- A pass that quotes where both sides are full, and nothing trades, moves the counter only. -/
theorem iteration_full {b : OptionOrderBook 10} {g : OptionOrderGenerator ℚ}
    (hb : OptionOrderBook.Inv b) (hg : g.config = mainConfig)
    (hfull : ∀ s, (b.getContainer s).length = 10)
    (hasks : ∀ x ∈ b.asks, Order.tradeable .bid ⟨1900⟩ x = false)
    (hbids : ∀ x ∈ b.bids, Order.tradeable .ask ⟨2200⟩ x = false) :
    iteration wiring quotePass (b, g) = (b, g.standing (g.nextId + 2)) := by
  have hcancel : ¬ quotePass.r < g.config.cancelWeight := by
    rw [hg]
    decide +kernel
  have haggress : ¬ quotePass.r < g.config.cancelWeight + g.config.aggressorWeight := by
    rw [hg]
    decide +kernel
  have hsame : ∀ (g' : OptionOrderGenerator ℚ) (o : Order),
      (∀ x ∈ b.getContainer o.side.opp, Order.tradeable o.side o.price x = false) →
      submit wiring o (b, g') = (b, g') := by
    intro g' o ho
    have hadd : (wiring : Wiring (OptionOrderBook 10) ℚ).addFn o (b, g') = (false, b, g') :=
      OptionOrderBook.add_full hb.sound (some notifier) g' ho (hfull o.side)
    unfold submit
    rw [hadd]
    rfl
  have hmid : g.config.midPrice = ⟨2000⟩ := by
    rw [hg]
    rfl
  have hnext : g.nextId + 1 + 1 = g.nextId + 2 := UInt32.add_assoc g.nextId 1 1
  unfold iteration pass
  simp only [if_neg hcancel, if_neg haggress, List.foldl_cons, List.foldl_nil]
  rw [hsame, hsame]
  · simp only [generateMmOrder, makeOrder, standing, hnext]
  · intro x hx
    simp only [generateMmOrder, makeOrder, hmid]
    exact hbids x hx
  · intro x hx
    simp only [generateMmOrder, makeOrder, hmid]
    exact hasks x hx

/-- From the tenth pass on the book is full and only the counter moves. -/
theorem quoted_later {n : ℕ} (hn : 10 ≤ n) :
    quoted n = ((quoted 10).1, (quoted 10).2.standing (UInt32.ofNat (2 * n))) := by
  induction n, hn using Nat.le_induction with
  | base =>
    have hnext : (quoted 10).2.nextId = 20 := by decide +kernel
    exact Prod.ext rfl (congrArg (quoted 10).2.standing hnext)
  | succ n _ ih =>
    obtain ⟨hr, hconfig⟩ := quoted_reachable 10
    have hfull : ∀ s, ((quoted 10).1.getContainer s).length = 10 := by
      intro s
      cases s <;> decide +kernel
    have hasks : ∀ x ∈ (quoted 10).1.asks, Order.tradeable .bid ⟨1900⟩ x = false := by
      decide +kernel
    have hbids : ∀ x ∈ (quoted 10).1.bids, Order.tradeable .ask ⟨2200⟩ x = false := by
      decide +kernel
    have hstep : quoted (n + 1) = iteration wiring quotePass (quoted n) :=
      Function.iterate_succ_apply' _ _ _
    have hcount : UInt32.ofNat (2 * n) + 2 = UInt32.ofNat (2 * (n + 1)) :=
      (UInt32.ofNat_add (2 * n) 2).symm
    have hfinal := iteration_full (g := (quoted 10).2.standing (UInt32.ofNat (2 * n)))
      (run_mirrors hr).inv hconfig hfull hasks hbids
    rw [hstep, ih, hfinal, ← hcount]
    rfl

/-- **An id of a live order is given again.** After 2^31 passes that quote and never trade, the
next bid gets the id of the first one, which still rests. -/
theorem live_id_given_again :
    (run wiring (OptionOrderBook.empty, new mainOption mainConfig)).Reachable
        ⟨quoted (2 ^ 31), []⟩ ∧
      (quoted (2 ^ 31)).2.Allowed quotePass ∧ (quoted (2 ^ 31)).1.has 1 = true ∧
      (∃ l ∈ (quoted (2 ^ 31)).2.liveOrders, l.id = 1) ∧
      (∃ o ∈ (pass wiring quotePass (quoted (2 ^ 31))).pending, o.id = 1) ∧
      ¬ Distinct wiring quotePass (quoted (2 ^ 31)) := by
  obtain ⟨hr, hconfig⟩ := quoted_reachable (2 ^ 31)
  have hw : quoted (2 ^ 31) = ((quoted 10).1, (quoted 10).2.standing 0) :=
    quoted_later (by omega)
  have hlive : ∃ l ∈ (quoted (2 ^ 31)).2.liveOrders, l.id = 1 := by
    rw [hw]
    decide +kernel
  have hnew : ∃ o ∈ (pass wiring quotePass (quoted (2 ^ 31))).pending, o.id = 1 := by
    rw [hw]
    decide +kernel
  have hhas : (quoted (2 ^ 31)).1.has 1 = true := by
    rw [hw]
    decide +kernel
  refine ⟨hr, quotePass_allowed hconfig, hhas, hlive, hnew, fun hd => ?_⟩
  obtain ⟨l, hl, hlid⟩ := hlive
  obtain ⟨o, ho, hoid⟩ := hnew
  exact hd o ho l hl (hoid.trans hlid.symm)

end OptionOrderGenerator

end Mms
