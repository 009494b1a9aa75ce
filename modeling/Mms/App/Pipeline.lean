import Mms.App.Loops
import Mms.Lib.Transition

/-!
# The client's pipeline

The three loops of `Mms.App.Loops`, each started once on empty queues, interleaved in any order.
`m_client_running` is set at most from `true` to `false`: by `receive_loop` when it gives up, or by
`stop_client`, which may come at any moment.

Nothing is lost between the loops because of three kinds of laws, kept by every step:
* `ReceiveLaw`: what `receive_loop` counted it pushed, abandoned at shutdown, or holds in its hands;
* `StrategyLaw`, `ExecutionLaw`: the same for the signals the other two loops count;
* `Fifo.Carries`: what was pushed into a queue was popped from it, in order, or is still queued.

`run_conserved` proves them of every run, and `pipeline_delivers` reads from them what the pipeline
delivers, at any moment and when all loops have exited.
-/

namespace Mms

open Lib

/-- The loops. -/
inductive Role where
  | network
  | strategy
  | execution
deriving DecidableEq

/-- The three loops and what they share. -/
structure Pipeline (N M : ℕ) where
  receive : ReceivePc
  strategy : StrategyPc
  execution : ExecutionPc
  shared : Shared N M

namespace Pipeline

variable {N M : ℕ}

/-- What happens in the pipeline. -/
inductive Label where
  | thread (role : Role) (act : Act)
  /-- `stop_client`. -/
  | stop

/-- What the scheduler chooses: a loop that steps, with the answers to it, or a stop. -/
inductive Move where
  | thread (role : Role) (env : Answers)
  | stop

/-- A step of the pipeline. -/
def next (decode : Packet → MarketData) : Move → Pipeline N M → Option (Label × Pipeline N M)
  | .thread .network env, p =>
    let (act, pc, s) := receiveNext decode env p.receive p.shared
    some (.thread .network act, { p with receive := pc, shared := s })
  | .thread .strategy env, p =>
    let (act, pc, s) := strategyNext env p.strategy p.shared
    some (.thread .strategy act, { p with strategy := pc, shared := s })
  | .thread .execution env, p =>
    let (act, pc, s) := executionNext env p.execution p.shared
    some (.thread .execution act, { p with execution := pc, shared := s })
  | .stop, p => some (.stop, { p with shared := { p.shared with clientRunning := false } })

/-- The loops before their first step, on empty queues and fresh counters. -/
def Started (p : Pipeline N M) : Prop :=
  p.receive = .test ∧ p.strategy = .test ∧ p.execution = .test ∧
    p.shared.marketDataQueue = Fifo.empty ∧ p.shared.signalQueue = Fifo.empty ∧
    p.shared.feed.ticksReceived = 0 ∧ p.shared.signalsGenerated = 0 ∧ p.shared.ordersSent = 0

/-- The runs of the pipeline. -/
def pipeline (N M : ℕ) (decode : Packet → MarketData) : LTS (Pipeline N M) Label :=
  LTS.ofNext Started (next decode)

/-! ## What a history says -/

/-- The ticks `m_ticks_received` counts. -/
def counted : Label → Option MarketData
  | .thread .network (.counted md) => some md
  | _ => none

def ticksPushed : Label → Option MarketData
  | .thread .network (.tickPushed md) => some md
  | _ => none

def abandoned : Label → Option MarketData
  | .thread .network (.abandoned md) => some md
  | _ => none

def ticksPopped : Label → Option MarketData
  | .thread .strategy (.tickPopped md) => some md
  | _ => none

def signalsPushed : Label → Option Signal
  | .thread .strategy (.signalPushed signal) => some signal
  | _ => none

def signalsPopped : Label → Option Signal
  | .thread .execution (.signalPopped signal) => some signal
  | _ => none

/-- The signals an order was generated from. -/
def executed : Label → Option Signal
  | .thread .execution (.executed signal _) => some signal
  | _ => none

end Pipeline

/-! ## What a loop holds in its hands -/

/-- The tick `receive_loop` has counted and not pushed yet. -/
def ReceivePc.hand : ReceivePc → List MarketData
  | .push md | .full md | .spinTest md | .spinPush md => [md]
  | _ => []

/-- `receive_loop` has found the queue full for the tick it holds. -/
def ReceivePc.blocked : ReceivePc → Option MarketData
  | .full md | .spinTest md | .spinPush md => some md
  | _ => none

/-- `receive_loop` is at its test, or past it for good. -/
def ReceivePc.AtTest : ReceivePc → Prop
  | .test | .exited => True
  | _ => False

/-- The signal `_strategy_loop` is about to push. -/
def StrategyPc.hand : StrategyPc → List Signal
  | .push signal => [signal]
  | _ => []

/-- The signals `_strategy_loop` has pushed and not counted yet. -/
def StrategyPc.uncounted : StrategyPc → ℕ
  | .count => 1
  | _ => 0

/-- The signal `_execution_loop` has popped and made no order of yet. -/
def ExecutionPc.hand : ExecutionPc → List Signal
  | .generate signal => [signal]
  | _ => []

/-- The signals `_execution_loop` has popped and not counted yet. -/
def ExecutionPc.uncounted : ExecutionPc → ℕ
  | .generate _ | .count => 1
  | _ => 0

namespace Pipeline

variable {N M : ℕ} {decode : Packet → MarketData} {h : List Label} {p p' : Pipeline N M} {e : Label}

/-- A step of the loop. -/
def stepOf (role : Role) : Label → Bool
  | .thread r _ => decide (r = role)
  | .stop => false

/-- What a step of the pipeline can be. -/
theorem step_cases (hs : (pipeline N M decode).step p e p') :
    (∃ env, e = .thread .network (receiveNext decode env p.receive p.shared).1 ∧
      p' = { p with
        receive := (receiveNext decode env p.receive p.shared).2.1
        shared := (receiveNext decode env p.receive p.shared).2.2 }) ∨
    (∃ env, e = .thread .strategy (strategyNext env p.strategy p.shared).1 ∧
      p' = { p with
        strategy := (strategyNext env p.strategy p.shared).2.1
        shared := (strategyNext env p.strategy p.shared).2.2 }) ∨
    (∃ env, e = .thread .execution (executionNext env p.execution p.shared).1 ∧
      p' = { p with
        execution := (executionNext env p.execution p.shared).2.1
        shared := (executionNext env p.execution p.shared).2.2 }) ∨
    (e = .stop ∧ p' = { p with shared := { p.shared with clientRunning := false } }) := by
  obtain ⟨m, hm⟩ := hs
  cases m with
  | thread role env =>
    cases role with
    | network =>
      obtain ⟨rfl, rfl⟩ := Prod.mk.inj (Option.some.inj hm)
      exact Or.inl ⟨env, rfl, rfl⟩
    | strategy =>
      obtain ⟨rfl, rfl⟩ := Prod.mk.inj (Option.some.inj hm)
      exact Or.inr (Or.inl ⟨env, rfl, rfl⟩)
    | execution =>
      obtain ⟨rfl, rfl⟩ := Prod.mk.inj (Option.some.inj hm)
      exact Or.inr (Or.inr (Or.inl ⟨env, rfl, rfl⟩))
  | stop =>
    obtain ⟨rfl, rfl⟩ := Prod.mk.inj (Option.some.inj hm)
    exact Or.inr (Or.inr (Or.inr ⟨rfl, rfl⟩))

/-! ## The laws of the loops -/

/-- What `receive_loop` counts, it pushes, abandons, or holds. -/
structure ReceiveLaw (h : List Label) (p : Pipeline N M) : Prop where
  ticks : LTS.seen counted h =
    LTS.seen ticksPushed h ++ p.receive.hand ++ LTS.seen abandoned h
  /-- A tick is abandoned once, at shutdown, after a push of it failed. -/
  last : LTS.seen abandoned h = [] ∨ (p.shared.clientRunning = false ∧ p.receive.AtTest ∧
    ∃ md, LTS.seen abandoned h = [md] ∧ Label.thread .network (.tickFull md) ∈ h)
  blocked : ∀ md, p.receive.blocked = some md → Label.thread .network (.tickFull md) ∈ h
  received : p.shared.feed.ticksReceived = UInt64.ofNat (LTS.seen counted h).length

/-- `_strategy_loop` pushes signals that are not `HOLD`, and counts each of them. -/
structure StrategyLaw (h : List Label) (p : Pipeline N M) : Prop where
  hand : ∀ signal ∈ p.strategy.hand, signal.type ≠ .hold
  pushed : ∀ signal ∈ LTS.seen signalsPushed h, signal.type ≠ .hold
  generated : p.shared.signalsGenerated + UInt64.ofNat p.strategy.uncounted =
    UInt64.ofNat (LTS.seen signalsPushed h).length

/-- `_execution_loop` makes an order of every signal it pops, and counts it. -/
structure ExecutionLaw (h : List Label) (p : Pipeline N M) : Prop where
  signals : LTS.seen signalsPopped h = LTS.seen executed h ++ p.execution.hand
  sent : p.shared.ordersSent + UInt64.ofNat p.execution.uncounted =
    UInt64.ofNat (LTS.seen signalsPopped h).length

/-- **What every step keeps.** -/
structure Conserved (h : List Label) (p : Pipeline N M) : Prop where
  receive : ReceiveLaw h p
  strategy : StrategyLaw h p
  execution : ExecutionLaw h p
  ticks : Fifo.Carries (LTS.seen ticksPushed h) (LTS.seen ticksPopped h) p.shared.marketDataQueue
  signals : Fifo.Carries (LTS.seen signalsPushed h) (LTS.seen signalsPopped h)
    p.shared.signalQueue

theorem conserved_started (h0 : Started p) : Conserved [] p := by
  obtain ⟨hr, hs, he, hq, hsq, h1, h2, h3⟩ := h0
  refine ⟨⟨?_, Or.inl rfl, ?_, h1⟩, ⟨?_, ?_, ?_⟩, ⟨?_, ?_⟩, ?_, ?_⟩
  · rw [hr]
    rfl
  · intro md hmd
    rw [hr] at hmd
    exact absurd hmd (by simp [ReceivePc.blocked])
  · intro signal hsig
    rw [hs] at hsig
    exact absurd hsig List.not_mem_nil
  · exact fun signal hsig => absurd hsig List.not_mem_nil
  · rw [h2, hs]
    rfl
  · rw [he]
    rfl
  · rw [h3, he]
    rfl
  · rw [hq]
    exact Fifo.carries_empty
  · rw [hsq]
    exact Fifo.carries_empty

/-! ## `receive_loop` -/

/-- A step that counts, pushes and abandons nothing. -/
theorem ReceiveLaw.silent (hl : ReceiveLaw h p)
    (he : counted e = none ∧ ticksPushed e = none ∧ abandoned e = none)
    (hhand : p'.receive.hand = p.receive.hand)
    (htest : p.receive.AtTest → p.shared.clientRunning = false → p'.receive.AtTest)
    (hblocked : ∀ md, p'.receive.blocked = some md →
      p.receive.blocked = some md ∨ e = .thread .network (.tickFull md))
    (hrun : p'.shared.clientRunning = true → p.shared.clientRunning = true)
    (hfeed : p'.shared.feed.ticksReceived = p.shared.feed.ticksReceived) :
    ReceiveLaw (e :: h) p' := by
  obtain ⟨h1, h2, h3⟩ := he
  refine ⟨?_, ?_, fun md hmd => ?_, ?_⟩
  · simp only [LTS.seen_cons, h1, h2, h3, Option.toList_none, List.append_nil, hhand]
    exact hl.ticks
  · simp only [LTS.seen_cons, h3, Option.toList_none, List.append_nil]
    rcases hl.last with hn | ⟨hfalse, hat, md, hmd, hmem⟩
    · exact Or.inl hn
    · refine Or.inr ⟨?_, htest hat hfalse, md, hmd, List.mem_cons_of_mem _ hmem⟩
      cases hr : p'.shared.clientRunning with
      | false => rfl
      | true => exact absurd (hrun hr) (by simp [hfalse])
  · rcases hblocked md hmd with hb | rfl
    · exact List.mem_cons_of_mem _ (hl.blocked md hb)
    · exact List.mem_cons_self
  · simp only [LTS.seen_cons, h1, Option.toList_none, List.append_nil, hfeed]
    exact hl.received

/-- Nothing is abandoned before the loop is back at its test. -/
theorem ReceiveLaw.none_abandoned (hl : ReceiveLaw h p) (hn : ¬ p.receive.AtTest) :
    LTS.seen abandoned h = [] := by
  rcases hl.last with h0 | ⟨-, hat, -⟩
  · exact h0
  · exact absurd hat hn

/-- A step that pushes the tick in hand. -/
theorem ReceiveLaw.push (hl : ReceiveLaw h p) {md : MarketData}
    (he : e = .thread .network (.tickPushed md)) (hhand : p.receive.hand = [md])
    (hn : ¬ p.receive.AtTest) (hpc : p'.receive = .test)
    (hfeed : p'.shared.feed = p.shared.feed) : ReceiveLaw (e :: h) p' := by
  have hnone := hl.none_abandoned hn
  have hticks := hl.ticks
  subst he
  rw [hhand, hnone, List.append_nil] at hticks
  refine ⟨?_, Or.inl ?_, fun md' hmd => ?_, ?_⟩
  · simp only [LTS.seen_cons, counted, ticksPushed, abandoned, Option.toList_none,
      Option.toList_some, List.append_nil, hpc, hnone, ReceivePc.hand]
    exact hticks
  · simp only [LTS.seen_cons, abandoned, Option.toList_none, List.append_nil]
    exact hnone
  · rw [hpc] at hmd
    exact absurd hmd (by simp [ReceivePc.blocked])
  · simp only [LTS.seen_cons, counted, Option.toList_none, List.append_nil, hfeed]
    exact hl.received

/-- The end of the spin on the full queue: the tick in hand is abandoned. -/
theorem ReceiveLaw.abandon (hl : ReceiveLaw h p) {md : MarketData}
    (hpc : p.receive = .spinTest md) (hpc' : p'.receive = .test)
    (hshared : p'.shared = p.shared) (hfalse : p.shared.clientRunning = false) :
    ReceiveLaw (.thread .network (.abandoned md) :: h) p' := by
  have hnone := hl.none_abandoned (by rw [hpc]; exact id)
  have hticks := hl.ticks
  rw [hpc, hnone, List.append_nil] at hticks
  refine ⟨?_, Or.inr ⟨?_, ?_, md, ?_, ?_⟩, fun md' hmd => ?_, ?_⟩
  · simp only [LTS.seen_cons, counted, ticksPushed, abandoned, Option.toList_none,
      Option.toList_some, List.append_nil, hpc', hnone, ReceivePc.hand, List.nil_append]
    exact hticks
  · rw [hshared, hfalse]
  · rw [hpc']
    trivial
  · simp only [LTS.seen_cons, abandoned, Option.toList_some, hnone, List.nil_append]
  · exact List.mem_cons_of_mem _ (hl.blocked md (by rw [hpc]; rfl))
  · rw [hpc'] at hmd
    exact absurd hmd (by simp [ReceivePc.blocked])
  · simp only [LTS.seen_cons, counted, Option.toList_none, List.append_nil, hshared]
    exact hl.received

/-- The increment of `m_ticks_received`. -/
theorem ReceiveLaw.count (hl : ReceiveLaw h p) {md : MarketData}
    (hpc : p.receive = .count md) (hpc' : p'.receive = .push md)
    (hfeed : p'.shared.feed.ticksReceived = p.shared.feed.ticksReceived + 1) :
    ReceiveLaw (.thread .network (.counted md) :: h) p' := by
  have hnone := hl.none_abandoned (by rw [hpc]; exact id)
  have hticks := hl.ticks
  rw [hpc, hnone] at hticks
  simp only [ReceivePc.hand, List.append_nil] at hticks
  refine ⟨?_, Or.inl ?_, fun md' hmd => ?_, ?_⟩
  · simp only [LTS.seen_cons, counted, ticksPushed, abandoned, Option.toList_none,
      Option.toList_some, List.append_nil, hpc', hnone, ReceivePc.hand, hticks]
  · simp only [LTS.seen_cons, abandoned, Option.toList_none, List.append_nil]
    exact hnone
  · rw [hpc'] at hmd
    exact absurd hmd (by simp [ReceivePc.blocked])
  · simp only [LTS.seen_cons, counted, Option.toList_some, List.length_append,
      List.length_singleton, UInt64.ofNat_add, hfeed, hl.received]
    rfl

/-- **Every step of `receive_loop` keeps its law.** -/
theorem ReceiveLaw.network (hl : ReceiveLaw h p) (env : Answers) :
    ReceiveLaw (.thread .network (receiveNext decode env p.receive p.shared).1 :: h)
      { p with
        receive := (receiveNext decode env p.receive p.shared).2.1
        shared := (receiveNext decode env p.receive p.shared).2.2 } := by
  obtain ⟨receive, strategy, execution, s⟩ := p
  cases receive with
  | test =>
    cases hrun : s.clientRunning with
    | true =>
      simp only [receiveNext, hrun, if_true]
      exact hl.silent ⟨rfl, rfl, rfl⟩ rfl (fun _ hf => absurd hf (by simp [hrun]))
        (fun _ hb => Or.inl hb) id rfl
    | false =>
      simp only [receiveNext, hrun, Bool.false_eq_true, if_false]
      exact hl.silent ⟨rfl, rfl, rfl⟩ rfl (fun _ _ => trivial) (fun _ hb => Or.inl hb) id rfl
  | client =>
    simp only [receiveNext]
    split
    all_goals
      exact hl.silent ⟨rfl, rfl, rfl⟩ rfl (fun ha => absurd ha id)
        (fun _ hb => Or.inl hb) id rfl
  | retry n =>
    simp only [receiveNext]
    split
    all_goals
      exact hl.silent ⟨rfl, rfl, rfl⟩ rfl (fun ha => absurd ha id)
        (fun _ hb => Or.inl hb) id rfl
  | reconnect n =>
    simp only [receiveNext, MarketFeed.reconnect]
    split
    all_goals
      exact hl.silent ⟨rfl, rfl, rfl⟩ rfl (fun ha => absurd ha id)
        (fun _ hb => Or.inl hb) id rfl
  | retried =>
    simp only [receiveNext]
    split
    all_goals
      exact hl.silent ⟨rfl, rfl, rfl⟩ rfl (fun ha => absurd ha id)
        (fun _ hb => Or.inl hb) id rfl
  | giveUp =>
    exact hl.silent ⟨rfl, rfl, rfl⟩ rfl (fun ha => absurd ha id) (fun _ hb => Or.inl hb)
      (fun hf => absurd hf (by simp [receiveNext])) rfl
  | recv =>
    simp only [receiveNext]
    split
    · exact hl.silent ⟨rfl, rfl, rfl⟩ rfl (fun ha => absurd ha id) (fun _ hb => Or.inl hb) id rfl
    · split
      all_goals
        exact hl.silent ⟨rfl, rfl, rfl⟩ rfl (fun ha => absurd ha id)
          (fun _ hb => Or.inl hb) id rfl
  | count md => exact hl.count rfl rfl rfl
  | push md =>
    simp only [receiveNext]
    split
    · exact hl.push rfl rfl id rfl rfl
    · exact hl.silent ⟨rfl, rfl, rfl⟩ rfl (fun ha => absurd ha id)
        (fun _ hb => Or.inr (by rw [Option.some.inj hb])) id rfl
  | full md =>
    exact hl.silent ⟨rfl, rfl, rfl⟩ rfl (fun ha => absurd ha id) (fun _ hb => Or.inl hb) id rfl
  | spinTest md =>
    cases hrun : s.clientRunning with
    | true =>
      simp only [receiveNext, hrun, if_true]
      exact hl.silent ⟨rfl, rfl, rfl⟩ rfl (fun ha => absurd ha id) (fun _ hb => Or.inl hb) id rfl
    | false =>
      simp only [receiveNext, hrun, Bool.false_eq_true, if_false]
      exact hl.abandon rfl rfl rfl hrun
  | spinPush md =>
    simp only [receiveNext]
    split
    · exact hl.push rfl rfl id rfl rfl
    · exact hl.silent ⟨rfl, rfl, rfl⟩ rfl (fun ha => absurd ha id) (fun _ hb => Or.inl hb) id rfl
  | exited =>
    exact hl.silent ⟨rfl, rfl, rfl⟩ rfl (fun _ _ => trivial) (fun _ hb => Or.inl hb) id rfl

/-- The other threads leave the law of `receive_loop` alone. -/
theorem ReceiveLaw.frame (hl : ReceiveLaw h p)
    (he : counted e = none ∧ ticksPushed e = none ∧ abandoned e = none)
    (hpc : p'.receive = p.receive) (hfeed : p'.shared.feed = p.shared.feed)
    (hrun : p'.shared.clientRunning = true → p.shared.clientRunning = true) :
    ReceiveLaw (e :: h) p' := by
  refine hl.silent he (by rw [hpc]) (fun ha _ => by rw [hpc]; exact ha) (fun md hb => ?_) hrun
    (by rw [hfeed])
  rw [hpc] at hb
  exact Or.inl hb

/-! ## `_strategy_loop` -/

theorem StrategyLaw.frame (hl : StrategyLaw h p) (he : signalsPushed e = none)
    (hpc : p'.strategy = p.strategy)
    (hgen : p'.shared.signalsGenerated = p.shared.signalsGenerated) : StrategyLaw (e :: h) p' := by
  have hseen : LTS.seen signalsPushed (e :: h) = LTS.seen signalsPushed h := by
    rw [LTS.seen_cons, he, Option.toList_none, List.append_nil]
  refine ⟨?_, ?_, ?_⟩
  · rw [hpc]
    exact hl.hand
  · rw [hseen]
    exact hl.pushed
  · rw [hseen, hpc, hgen]
    exact hl.generated

/-- A signal that reaches the push is not `HOLD`. -/
theorem strategyBody_ne_hold {memory signal : Signal} {md : MarketData}
    (hs : Core.strategyBody memory md = some signal) : signal.type ≠ .hold := by
  unfold Core.strategyBody at hs
  simp only at hs
  split at hs
  · rename_i hne
    rw [← Option.some.inj hs]
    exact hne
  · exact absurd hs (by simp)

/-- **Every step of `_strategy_loop` keeps its law.** -/
theorem StrategyLaw.strategy (hl : StrategyLaw h p) (env : Answers) :
    StrategyLaw (.thread .strategy (strategyNext env p.strategy p.shared).1 :: h)
      { p with
        strategy := (strategyNext env p.strategy p.shared).2.1
        shared := (strategyNext env p.strategy p.shared).2.2 } := by
  obtain ⟨receive, strategy, execution, s⟩ := p
  obtain ⟨hhand, hpushed, hgen⟩ := hl
  cases strategy with
  | test =>
    simp only [strategyNext]
    split
    all_goals exact ⟨fun _ hs => absurd hs List.not_mem_nil, hpushed, hgen⟩
  | pop =>
    simp only [strategyNext]
    split
    · split
      · rename_i signal hs
        refine ⟨fun signal' hin => ?_, hpushed, hgen⟩
        rw [List.mem_singleton.mp hin]
        exact strategyBody_ne_hold hs
      · exact ⟨fun _ hs => absurd hs List.not_mem_nil, hpushed, hgen⟩
    · exact ⟨fun _ hs => absurd hs List.not_mem_nil, hpushed, hgen⟩
  | push signal =>
    simp only [strategyNext]
    split
    · refine ⟨fun _ hs => absurd hs List.not_mem_nil, fun signal' hin => ?_, ?_⟩
      · rw [LTS.seen_cons, List.mem_append] at hin
        rcases hin with hin | hin
        · exact hpushed signal' hin
        · exact hhand signal' hin
      · -- the signal is pushed now, and counted in the next step
        have hgen' : s.signalsGenerated + 0 = UInt64.ofNat (LTS.seen signalsPushed h).length := hgen
        rw [UInt64.add_zero] at hgen'
        rw [LTS.seen_cons, List.length_append, UInt64.ofNat_add, ← hgen']
        rfl
    · exact ⟨fun _ hs => absurd hs List.not_mem_nil, hpushed, hgen⟩
  | count =>
    refine ⟨fun _ hs => absurd hs List.not_mem_nil, hpushed, ?_⟩
    have hgen' : s.signalsGenerated + 1 + 0 =
        UInt64.ofNat (LTS.seen signalsPushed h).length := by
      rw [UInt64.add_zero]
      exact hgen
    exact hgen'
  | exited => exact ⟨hhand, hpushed, hgen⟩

/-! ## `_execution_loop` -/

theorem ExecutionLaw.frame (hl : ExecutionLaw h p)
    (he : signalsPopped e = none ∧ executed e = none) (hpc : p'.execution = p.execution)
    (hsent : p'.shared.ordersSent = p.shared.ordersSent) : ExecutionLaw (e :: h) p' := by
  have hpop : LTS.seen signalsPopped (e :: h) = LTS.seen signalsPopped h := by
    rw [LTS.seen_cons, he.1, Option.toList_none, List.append_nil]
  have hexe : LTS.seen executed (e :: h) = LTS.seen executed h := by
    rw [LTS.seen_cons, he.2, Option.toList_none, List.append_nil]
  refine ⟨?_, ?_⟩
  · rw [hpop, hexe, hpc]
    exact hl.signals
  · rw [hpop, hpc, hsent]
    exact hl.sent

/-- **Every step of `_execution_loop` keeps its law.** -/
theorem ExecutionLaw.execution (hl : ExecutionLaw h p) (env : Answers) :
    ExecutionLaw (.thread .execution (executionNext env p.execution p.shared).1 :: h)
      { p with
        execution := (executionNext env p.execution p.shared).2.1
        shared := (executionNext env p.execution p.shared).2.2 } := by
  obtain ⟨receive, strategy, execution, s⟩ := p
  obtain ⟨hsig, hsent⟩ := hl
  cases execution with
  | test =>
    simp only [executionNext]
    split
    all_goals exact ⟨hsig, hsent⟩
  | pop =>
    simp only [executionNext]
    split
    · refine ⟨?_, ?_⟩
      · have hsig' : LTS.seen signalsPopped h = LTS.seen executed h ++ [] := hsig
        rw [List.append_nil] at hsig'
        rw [LTS.seen_cons, hsig']
        rfl
      · have hsent' : s.ordersSent + 0 = UInt64.ofNat (LTS.seen signalsPopped h).length := hsent
        rw [UInt64.add_zero] at hsent'
        rw [LTS.seen_cons, List.length_append, UInt64.ofNat_add, ← hsent']
        rfl
    · exact ⟨hsig, hsent⟩
  | generate signal =>
    refine ⟨?_, hsent⟩
    have hsig' : LTS.seen signalsPopped h = LTS.seen executed h ++ [signal] ++ [] := by
      rw [List.append_nil]
      exact hsig
    simp only [executionNext, LTS.seen_cons, signalsPopped, executed, Option.toList_none,
      Option.toList_some, List.append_nil]
    rw [List.append_nil] at hsig'
    rw [hsig']
    exact (List.append_nil _).symm
  | count =>
    refine ⟨hsig, ?_⟩
    have hsent' : s.ordersSent + 1 + 0 = UInt64.ofNat (LTS.seen signalsPopped h).length := by
      rw [UInt64.add_zero]
      exact hsent
    exact hsent'
  | exited => exact ⟨hsig, hsent⟩

/-! ## The queues -/

/-- `receive_loop` pushes into the queue of ticks. -/
theorem ticks_network {s : Shared N M} (pc : ReceivePc) (env : Answers)
    (hc : Fifo.Carries (LTS.seen ticksPushed h) (LTS.seen ticksPopped h) s.marketDataQueue) :
    let r := receiveNext decode env pc s
    Fifo.Carries (LTS.seen ticksPushed (.thread .network r.1 :: h))
      (LTS.seen ticksPopped (.thread .network r.1 :: h)) r.2.2.marketDataQueue := by
  intro r
  have hpop : LTS.seen ticksPopped (.thread .network r.1 :: h) = LTS.seen ticksPopped h :=
    (LTS.seen_cons _ _ _).trans (List.append_nil _)
  rw [hpop, LTS.seen_cons]
  -- the two pushes, and what leaves the queue alone
  have hpush : ∀ {md : MarketData} {q : Fifo MarketData N}, s.marketDataQueue.push md = some q →
      Fifo.Carries (LTS.seen ticksPushed h ++ [md]) (LTS.seen ticksPopped h) q :=
    fun hq => hc.push hq
  have hkeep : Fifo.Carries (LTS.seen ticksPushed h ++ []) (LTS.seen ticksPopped h)
      s.marketDataQueue := by
    rw [List.append_nil]
    exact hc
  cases pc with
  | push md =>
    simp only [r, receiveNext]
    split
    · rename_i q hq
      exact hpush hq
    · exact hkeep
  | spinPush md =>
    simp only [r, receiveNext]
    split
    · rename_i q hq
      exact hpush hq
    · exact hkeep
  | recv =>
    simp only [r, receiveNext]
    split
    all_goals exact hkeep
  | spinTest md =>
    simp only [r, receiveNext]
    split
    all_goals exact hkeep
  | test | client | retry n | reconnect n | retried | giveUp | count md | full md | exited =>
    exact hkeep

/-- `_strategy_loop` pops from the queue of ticks. -/
theorem ticks_strategy {s : Shared N M} (pc : StrategyPc) (env : Answers)
    (hc : Fifo.Carries (LTS.seen ticksPushed h) (LTS.seen ticksPopped h) s.marketDataQueue) :
    let r := strategyNext env pc s
    Fifo.Carries (LTS.seen ticksPushed (.thread .strategy r.1 :: h))
      (LTS.seen ticksPopped (.thread .strategy r.1 :: h)) r.2.2.marketDataQueue := by
  intro r
  have hpush : LTS.seen ticksPushed (.thread .strategy r.1 :: h) = LTS.seen ticksPushed h :=
    (LTS.seen_cons _ _ _).trans (List.append_nil _)
  rw [hpush, LTS.seen_cons]
  have hkeep : Fifo.Carries (LTS.seen ticksPushed h) (LTS.seen ticksPopped h ++ [])
      s.marketDataQueue := by
    rw [List.append_nil]
    exact hc
  cases pc with
  | pop =>
    simp only [r, strategyNext]
    split
    · rename_i md q hq
      exact hc.pop hq
    · exact hkeep
  | push signal =>
    simp only [r, strategyNext]
    split
    all_goals exact hkeep
  | test | count | exited => exact hkeep

/-- `_strategy_loop` pushes into the queue of signals. -/
theorem signals_strategy {s : Shared N M} (pc : StrategyPc) (env : Answers)
    (hc : Fifo.Carries (LTS.seen signalsPushed h) (LTS.seen signalsPopped h) s.signalQueue) :
    let r := strategyNext env pc s
    Fifo.Carries (LTS.seen signalsPushed (.thread .strategy r.1 :: h))
      (LTS.seen signalsPopped (.thread .strategy r.1 :: h)) r.2.2.signalQueue := by
  intro r
  have hpop : LTS.seen signalsPopped (.thread .strategy r.1 :: h) = LTS.seen signalsPopped h :=
    (LTS.seen_cons _ _ _).trans (List.append_nil _)
  rw [hpop, LTS.seen_cons]
  have hkeep : Fifo.Carries (LTS.seen signalsPushed h ++ []) (LTS.seen signalsPopped h)
      s.signalQueue := by
    rw [List.append_nil]
    exact hc
  cases pc with
  | pop =>
    simp only [r, strategyNext]
    split
    all_goals exact hkeep
  | push signal =>
    simp only [r, strategyNext]
    split
    · rename_i q hq
      exact hc.push hq
    · exact hkeep
  | test | count | exited => exact hkeep

/-- `_execution_loop` pops from the queue of signals. -/
theorem signals_execution {s : Shared N M} (pc : ExecutionPc) (env : Answers)
    (hc : Fifo.Carries (LTS.seen signalsPushed h) (LTS.seen signalsPopped h) s.signalQueue) :
    let r := executionNext env pc s
    Fifo.Carries (LTS.seen signalsPushed (.thread .execution r.1 :: h))
      (LTS.seen signalsPopped (.thread .execution r.1 :: h)) r.2.2.signalQueue := by
  intro r
  have hpush : LTS.seen signalsPushed (.thread .execution r.1 :: h) = LTS.seen signalsPushed h :=
    (LTS.seen_cons _ _ _).trans (List.append_nil _)
  rw [hpush, LTS.seen_cons]
  have hkeep : Fifo.Carries (LTS.seen signalsPushed h) (LTS.seen signalsPopped h ++ [])
      s.signalQueue := by
    rw [List.append_nil]
    exact hc
  cases pc with
  | pop =>
    simp only [r, executionNext]
    split
    · rename_i signal q hq
      exact hc.pop hq
    · exact hkeep
  | test | generate signal | count | exited => exact hkeep

/-! ## Every run -/

/-- A queue no push or pop of which is in the label. -/
theorem carries_frame {α : Type} {cap : ℕ} {pushed popped : Label → Option α} {q : Fifo α cap}
    (hc : Fifo.Carries (LTS.seen pushed h) (LTS.seen popped h) q) (hpush : pushed e = none)
    (hpop : popped e = none) :
    Fifo.Carries (LTS.seen pushed (e :: h)) (LTS.seen popped (e :: h)) q := by
  rw [LTS.seen_cons, LTS.seen_cons, hpush, hpop, Option.toList_none, List.append_nil,
    List.append_nil]
  exact hc

/-- **Every step keeps everything.** -/
theorem Conserved.step (hc : Conserved h p) (m : Move) (hs : next decode m p = some (e, p')) :
    Conserved (e :: h) p' := by
  obtain ⟨hr, hst, hex, ht, hsg⟩ := hc
  cases m with
  | thread role env =>
    cases role with
    | network =>
      simp only [next, Option.some.injEq, Prod.mk.injEq] at hs
      obtain ⟨rfl, rfl⟩ := hs
      obtain ⟨hq, hgen, hsent, -⟩ := receiveNext_frame decode env p.receive p.shared
      refine ⟨hr.network env, hst.frame rfl rfl hgen, hex.frame ⟨rfl, rfl⟩ rfl hsent,
        ticks_network p.receive env ht, ?_⟩
      simp only [hq]
      exact carries_frame hsg rfl rfl
    | strategy =>
      simp only [next, Option.some.injEq, Prod.mk.injEq] at hs
      obtain ⟨rfl, rfl⟩ := hs
      obtain ⟨hrun, hfeed, hsent⟩ := strategyNext_frame env p.strategy p.shared
      refine ⟨hr.frame ⟨rfl, rfl, rfl⟩ rfl hfeed fun hf => ?_, hst.strategy env,
        hex.frame ⟨rfl, rfl⟩ rfl hsent, ticks_strategy p.strategy env ht,
        signals_strategy p.strategy env hsg⟩
      rw [← hrun]
      exact hf
    | execution =>
      simp only [next, Option.some.injEq, Prod.mk.injEq] at hs
      obtain ⟨rfl, rfl⟩ := hs
      obtain ⟨hrun, hfeed, hq, hgen⟩ := executionNext_frame env p.execution p.shared
      refine ⟨hr.frame ⟨rfl, rfl, rfl⟩ rfl hfeed fun hf => ?_, hst.frame rfl rfl hgen,
        hex.execution env, ?_, signals_execution p.execution env hsg⟩
      · rw [← hrun]
        exact hf
      · simp only [hq]
        exact carries_frame ht rfl rfl
  | stop =>
    simp only [next, Option.some.injEq, Prod.mk.injEq] at hs
    obtain ⟨rfl, rfl⟩ := hs
    exact ⟨hr.frame ⟨rfl, rfl, rfl⟩ rfl rfl fun hf => absurd hf (by simp), hst.frame rfl rfl rfl,
      hex.frame ⟨rfl, rfl⟩ rfl rfl, carries_frame ht rfl rfl, carries_frame hsg rfl rfl⟩

theorem run_conserved (hrun : (pipeline N M decode).Run h p) : Conserved h p := by
  refine LTS.Run.invariant (fun p h0 => conserved_started h0) (fun h p e p' _ hc hs => ?_) hrun
  obtain ⟨m, hm⟩ := hs
  exact hc.step m hm

/-- All three loops have exited. -/
def Exited (p : Pipeline N M) : Prop :=
  p.receive = .exited ∧ p.strategy = .exited ∧ p.execution = .exited

instance (p : Pipeline N M) : Decidable p.Exited := inferInstanceAs (Decidable (_ ∧ _ ∧ _))

/-- What the pipeline delivers, in a state `p` reached with history `h`. -/
structure Delivered (h : List Label) (p : Pipeline N M) : Prop where
  received : p.shared.feed.ticksReceived = UInt64.ofNat (LTS.seen counted h).length
  /-- The ticks counted are those popped, those queued, and at most one more: in the hands of
  `receive_loop`, or abandoned when the shutdown came while the queue was full for it. -/
  ticks : ∃ last, LTS.seen counted h =
      LTS.seen ticksPopped h ++ p.shared.marketDataQueue.items ++ last ∧ last.length ≤ 1 ∧
    ∀ md ∈ last, p.receive.hand = [md] ∨ (md ∈ LTS.seen abandoned h ∧
      p.shared.clientRunning = false ∧ Label.thread .network (.tickFull md) ∈ h)
  /-- The signals pushed are those popped and those queued, and none of them is `HOLD`. -/
  signals : LTS.seen signalsPushed h = LTS.seen signalsPopped h ++ p.shared.signalQueue.items
  nonHold : ∀ signal ∈ LTS.seen signalsPushed h, signal.type ≠ .hold
  /-- The signals popped are those an order was generated from, but for one in hand. -/
  executed : LTS.seen signalsPopped h = LTS.seen executed h ++ p.execution.hand
  /-- At the end the counters add up. -/
  exitTicks : p.Exited → ∃ k ≤ 1, p.shared.feed.ticksReceived =
    UInt64.ofNat ((LTS.seen ticksPopped h).length + p.shared.marketDataQueue.items.length + k)
  exitSignals : p.Exited → p.shared.signalsGenerated =
    p.shared.ordersSent + UInt64.ofNat p.shared.signalQueue.items.length

theorem ReceiveLaw.last_length (hr : ReceiveLaw h p) :
    (p.receive.hand ++ LTS.seen abandoned h).length ≤ 1 := by
  rcases hr.last with hn | ⟨-, hat, md, hmd, -⟩
  · rw [hn, List.append_nil]
    cases p.receive <;> simp [ReceivePc.hand]
  · have hhand : p.receive.hand = [] := by
      cases hpc : p.receive <;> rw [hpc] at hat <;> first | rfl | exact absurd hat id
    rw [hmd, hhand]
    exact Nat.le_refl 1

/-- **The pipeline loses and repeats nothing**, in any interleaving of its loops. -/
theorem pipeline_delivers (hrun : (pipeline N M decode).Run h p) : Delivered h p := by
  obtain ⟨hr, hst, hex, ht, hsg⟩ := run_conserved hrun
  have hticks : LTS.seen counted h = LTS.seen ticksPopped h ++ p.shared.marketDataQueue.items ++
      (p.receive.hand ++ LTS.seen abandoned h) := by
    have hpushed : LTS.seen ticksPushed h =
        LTS.seen ticksPopped h ++ p.shared.marketDataQueue.items := ht
    rw [hr.ticks, hpushed, List.append_assoc _ p.receive.hand]
  refine ⟨hr.received, ⟨_, hticks, hr.last_length, fun md hmd => ?_⟩, hsg, hst.pushed,
    hex.signals, fun _ => ⟨_, hr.last_length, ?_⟩, fun hexit => ?_⟩
  · rcases List.mem_append.mp hmd with hin | hin
    · left
      cases hpc : p.receive <;> rw [hpc] at hin <;> simp_all [ReceivePc.hand]
    · right
      rcases hr.last with hn | ⟨hfalse, -, md', hmd', hmem⟩
      · rw [hn] at hin
        exact absurd hin List.not_mem_nil
      · have heq : md = md' := by
          rw [hmd'] at hin
          exact List.mem_singleton.mp hin
        rw [heq] at hin ⊢
        exact ⟨hin, hfalse, hmem⟩
  · rw [hr.received, hticks, List.length_append, List.length_append]
  · obtain ⟨-, hs, he⟩ := hexit
    have hgen := hst.generated
    have hsent := hex.sent
    rw [hs] at hgen
    rw [he] at hsent
    have hgen' : p.shared.signalsGenerated + 0 = _ := hgen
    have hsent' : p.shared.ordersSent + 0 = _ := hsent
    have hsg' : LTS.seen signalsPushed h =
        LTS.seen signalsPopped h ++ p.shared.signalQueue.items := hsg
    rw [UInt64.add_zero] at hgen' hsent'
    rw [hgen', hsent', hsg', List.length_append, UInt64.ofNat_add]

/-- A tick that becomes an order, a second one that finds the queue full, and a shutdown. -/
theorem pipeline_delivers_two :
    let md : MarketData := ⟨1, 180, 180, 0, Vector.replicate 8 65⟩
    let p0 : Pipeline 1 1 := ⟨.test, .test, .test,
      ⟨true, Fifo.empty, Fifo.empty, ⟨true, true, 0, 0⟩, 0, 0, 1⟩⟩
    let memory : Signal := ⟨Vector.replicate 8 0, .hold, 0, 0, 0⟩
    let env : Answers := ⟨some (List.replicate 40 0), true, memory, 0⟩
    let tick := List.replicate 5 (Move.thread .network env)
    let moves := tick ++ List.replicate 4 (.thread .strategy env) ++
      List.replicate 4 (.thread .execution env) ++ tick ++ tick ++ [.stop] ++
      List.replicate 4 (.thread .network env) ++ [.thread .strategy env, .thread .execution env]
    let r := (LTS.exec (next fun _ => md) moves ([], p0)).getD ([], p0)
    r.2.Exited ∧ LTS.seen counted r.1 = [md, md, md] ∧ LTS.seen abandoned r.1 = [md] ∧
      Delivered r.1 r.2 := by
  intro md p0 memory env tick moves r
  have he : LTS.exec (next fun _ => md) moves ([], p0) = some r := LTS.exec_getD (by decide +kernel)
  have hrun : (pipeline 1 1 fun _ => md).Run r.1 r.2 :=
    LTS.Run.exec (.start ⟨rfl, rfl, rfl, rfl, rfl, rfl, rfl, rfl⟩) he
  exact ⟨by decide +kernel, by decide +kernel, by decide +kernel, pipeline_delivers hrun⟩

end Pipeline

end Mms
