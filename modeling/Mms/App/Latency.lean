import Mms.App.Pipeline

/-!
# How long a tick waits

None of the three loops waits for another one, but for `receive_loop` with a tick in hand and the
queue full. So what is in flight moves on with the steps of the thread whose turn it is, whatever
the other threads do in between. Each pass of a loop takes at most four steps.

* `tick_latency`: all ticks counted by some moment are popped once the strategy has made four steps
  from then on, the network thread three after these, and the strategy `4 * N` after these.
* `signal_latency`: all signals pushed by some moment are executed once the execution thread has
  made `4 * (M + 1)` steps from then on.

Both are about runs in which `m_client_running` is still set at the end: a stop leaves queued what
is queued. Time is counted in steps of the threads, not in seconds.
-/

namespace Mms

open Lib

/-- The steps of `_strategy_loop` up to the end of its next `pop`. -/
def StrategyPc.slack : StrategyPc → ℕ
  | .test => 2
  | .pop => 1
  | .push _ => 4
  | .count => 3
  | .exited => 0

/-- The steps of `_execution_loop` up to the next order it makes, if a signal is there. -/
def ExecutionPc.slack : ExecutionPc → ℕ
  | .test => 3
  | .pop => 2
  | .generate _ => 1
  | .count => 4
  | .exited => 0

/-- The steps of `receive_loop` up to the end of its next `push`, with a tick in hand. -/
def ReceivePc.slack : ReceivePc → ℕ
  | .push _ | .spinPush _ => 1
  | .spinTest _ => 2
  | .full _ => 3
  | _ => 0

namespace Pipeline

variable {N M : ℕ} {decode : Packet → MarketData} {h h0 : List Label} {p p0 p' : Pipeline N M}
  {e : Label}

/-! ## While `m_client_running` is set -/

/-- `m_client_running` is not set again. -/
theorem running_of_step (hs : (pipeline N M decode).step p e p')
    (hrunning : p'.shared.clientRunning = true) : p.shared.clientRunning = true := by
  rcases step_cases hs with ⟨env, rfl, rfl⟩ | ⟨env, rfl, rfl⟩ | ⟨env, rfl, rfl⟩ | ⟨rfl, rfl⟩
  · exact (receiveNext_frame decode env p.receive p.shared).2.2.2 hrunning
  · exact (strategyNext_frame env p.strategy p.shared).1 ▸ hrunning
  · exact (executionNext_frame env p.execution p.shared).1 ▸ hrunning
  · exact absurd hrunning (by simp)

theorem running_since (hr : ((pipeline N M decode).since p0).Run h p)
    (hrunning : p.shared.clientRunning = true) : p0.shared.clientRunning = true := by
  induction hr with
  | start h' =>
    obtain rfl := h'
    exact hrunning
  | next _ hs ih => exact ih (running_of_step hs hrunning)

/-! ## One pass of a loop -/

/-- A step of `_strategy_loop` is one of at most four for a tick, or finds the queue empty. -/
theorem strategyNext_slack (env : Answers) {pc : StrategyPc} {s : Shared N M}
    (hrunning : s.clientRunning = true) (hpc : pc ≠ .exited) :
    let r := strategyNext env pc s
    r.2.1 ≠ .exited ∧
      (1 + r.2.1.slack ≤ pc.slack + 4 * (ticksPopped (.thread .strategy r.1)).isSome.toNat ∨
        pc = .pop ∧ s.marketDataQueue.items = []) := by
  intro r
  cases pc with
  | test =>
    simp only [r, strategyNext, hrunning, if_true]
    exact ⟨by simp, Or.inl (by decide)⟩
  | pop =>
    cases hq : s.marketDataQueue.pop with
    | none =>
      simp only [r, strategyNext, hq]
      exact ⟨by simp, Or.inr ⟨trivial, Fifo.pop_eq_none.mp hq⟩⟩
    | some mdq =>
      obtain ⟨md, q⟩ := mdq
      simp only [r, strategyNext, hq]
      cases Core.strategyBody env.memory md with
      | none => exact ⟨by simp, Or.inl (show 1 + 2 ≤ 1 + 4 by omega)⟩
      | some signal => exact ⟨by simp, Or.inl (show 1 + 4 ≤ 1 + 4 by omega)⟩
  | push signal =>
    cases hq : s.signalQueue.push signal with
    | none =>
      simp only [r, strategyNext, hq]
      exact ⟨by simp, Or.inl (show 1 + 2 ≤ 4 by omega)⟩
    | some q =>
      simp only [r, strategyNext, hq]
      exact ⟨by simp, Or.inl (show 1 + 3 ≤ 4 by omega)⟩
  | count => exact ⟨by simp [r, strategyNext], Or.inl (Nat.le_refl 3)⟩
  | exited => exact absurd rfl hpc

/-- So is one of `_execution_loop`. -/
theorem executionNext_slack (env : Answers) {pc : ExecutionPc} {s : Shared N M}
    (hrunning : s.clientRunning = true) (hpc : pc ≠ .exited) :
    let r := executionNext env pc s
    r.2.1 ≠ .exited ∧
      (1 + r.2.1.slack ≤ pc.slack + 4 * (executed (.thread .execution r.1)).isSome.toNat ∨
        pc = .pop ∧ s.signalQueue.items = []) := by
  intro r
  cases pc with
  | test =>
    simp only [r, executionNext, hrunning, if_true]
    exact ⟨by simp, Or.inl (by decide)⟩
  | pop =>
    cases hq : s.signalQueue.pop with
    | none =>
      simp only [r, executionNext, hq]
      exact ⟨by simp, Or.inr ⟨trivial, Fifo.pop_eq_none.mp hq⟩⟩
    | some sq =>
      obtain ⟨signal, q⟩ := sq
      simp only [r, executionNext, hq]
      exact ⟨by simp, Or.inl (Nat.le_refl 2)⟩
  | generate signal => exact ⟨by simp [r, executionNext], Or.inl (Nat.le_refl 5)⟩
  | count => exact ⟨by simp [r, executionNext], Or.inl (Nat.le_refl 4)⟩
  | exited => exact absurd rfl hpc

/-- With a tick in hand and room in the queue, `receive_loop` pushes it in at most three steps. -/
theorem receiveNext_slack (decode : Packet → MarketData) (env : Answers) {pc : ReceivePc}
    {s : Shared N M} (hrunning : s.clientRunning = true) (hhand : pc.hand ≠ [])
    (hroom : s.marketDataQueue.items.length < N) :
    let r := receiveNext decode env pc s
    1 + r.2.1.slack ≤ pc.slack ∨ (ticksPushed (.thread .network r.1)).isSome = true := by
  intro r
  have hpush : ∀ md, s.marketDataQueue.push md ≠ none := by
    intro md hq
    rw [Fifo.push_eq_none] at hq
    omega
  cases pc with
  | push md | spinPush md =>
    obtain ⟨q, hq⟩ := Option.ne_none_iff_exists'.mp (hpush md)
    simp only [r, receiveNext, hq]
    exact Or.inr rfl
  | full md => exact Or.inl (Nat.le_refl 3)
  | spinTest md =>
    simp only [r, receiveNext, hrunning, if_true]
    exact Or.inl (Nat.le_refl 2)
  | _ => exact absurd rfl hhand

/-- Neither loop has exited. -/
theorem none_exited (hr : (pipeline N M decode).Run h p)
    (hrunning : p.shared.clientRunning = true) :
    p.strategy ≠ .exited ∧ p.execution ≠ .exited := by
  induction hr with
  | start h0 =>
    obtain ⟨-, h2, h3, -⟩ := h0
    rw [h2, h3]
    simp
  | next hr hs ih =>
    have hbefore := running_of_step hs hrunning
    obtain ⟨h2, h3⟩ := ih hbefore
    rcases step_cases hs with ⟨env, rfl, rfl⟩ | ⟨env, rfl, rfl⟩ | ⟨env, rfl, rfl⟩ | ⟨rfl, rfl⟩
    · exact ⟨h2, h3⟩
    · exact ⟨(strategyNext_slack env hbefore h2).1, h3⟩
    · exact ⟨h2, (executionNext_slack env hbefore h3).1⟩
    · exact absurd hrunning (by simp)

/-! ## The pace of the loops -/

theorem clear_of_step (hs : (pipeline N M decode).step p e p')
    (hclear : p.shared.clientRunning = false) : p'.shared.clientRunning = false := by
  cases hr : p'.shared.clientRunning with
  | false => rfl
  | true => exact absurd (running_of_step hs hr) (by simp [hclear])

/-- What is seen of a longer history is more. -/
theorem seen_le {α : Type} (f : Label → Option α) (h h' : List Label) :
    (LTS.seen f h).length ≤ (LTS.seen f (h' ++ h)).length := by
  rw [LTS.seen_append, List.length_append]
  omega

theorem seen_le_cons {α : Type} (f : Label → Option α) (e : Label) (h : List Label) :
    (LTS.seen f h).length ≤ (LTS.seen f (e :: h)).length := seen_le f h [e]

/-- **The pace of a loop.** If each of its steps takes one off `slack` or is one that does what
`done` sees, then so many steps do so many of these, as long as `goal` of them are not reached. -/
theorem pace {α : Type} (role : Role) (done : Label → Option α) (slack : Pipeline N M → ℕ)
    (goal : ℕ) (hr0 : (pipeline N M decode).Run h0 p0)
    (hslack : ∀ h p, (pipeline N M decode).Run (h ++ h0) p → p.shared.clientRunning = true →
      (LTS.seen done (h ++ h0)).length < goal → 1 ≤ slack p)
    (hstep : ∀ h p e p', (pipeline N M decode).Run (h ++ h0) p → p.shared.clientRunning = true →
      (LTS.seen done (h ++ h0)).length < goal → (pipeline N M decode).step p e p' →
      (stepOf role e).toNat + slack p' ≤ slack p + 4 * (done e).isSome.toNat ∨
        p'.shared.clientRunning = false)
    (hr : ((pipeline N M decode).since p0).Run h p) (hrunning : p.shared.clientRunning = true) :
    h.countP (stepOf role) + 1 ≤ slack p0 + 4 * (LTS.seen done h).length ∨
      goal ≤ (LTS.seen done (h ++ h0)).length := by
  have hpot := LTS.Run.potential (stepOf role) (fun e => (done e).isSome) slack 4
    (fun h p => p.shared.clientRunning = false ∨ goal ≤ (LTS.seen done (h ++ h0)).length)
    ?_ ?_ hr
  · by_cases hgoal : goal ≤ (LTS.seen done (h ++ h0)).length
    · exact Or.inr hgoal
    · left
      have hend := hslack h p (hr0.append hr) hrunning (by omega)
      rcases hpot with hle | hclear | hall
      · rw [LTS.length_seen]
        omega
      · exact absurd hrunning (by simp [hclear])
      · exact absurd hall hgoal
  · rintro h p e p' (hclear | hall) hs
    · exact Or.inl (clear_of_step hs hclear)
    · exact Or.inr (hall.trans (seen_le_cons done e (h ++ h0)))
  · intro h p e p' hr hnot hs
    rw [not_or, Bool.not_eq_false, Nat.not_le] at hnot
    exact (hstep h p e p' (hr0.append hr) hnot.1 hnot.2 hs).imp id Or.inl

/-- Four steps of the strategy pop a tick, as long as one of those pushed before the start is
left. -/
theorem strategy_pace (hr0 : (pipeline N M decode).Run h0 p0)
    (hr : ((pipeline N M decode).since p0).Run h p) (hrunning : p.shared.clientRunning = true) :
    h.countP (stepOf .strategy) + 1 ≤ 4 + 4 * (LTS.seen ticksPopped h).length ∨
      (LTS.seen ticksPushed h0).length ≤ (LTS.seen ticksPopped (h ++ h0)).length := by
  have hpace := pace .strategy ticksPopped (fun p => p.strategy.slack)
    (LTS.seen ticksPushed h0).length hr0 ?_ ?_ hr hrunning
  · have hstart : p0.strategy.slack ≤ 4 := by cases p0.strategy <;> simp [StrategyPc.slack]
    exact hpace.imp (fun hle => by omega) id
  · intro h p hrun hrunning _
    have hne := (none_exited hrun hrunning).1
    cases hpc : p.strategy <;> simp_all [StrategyPc.slack]
  · intro h p e p' hrun hrunning hgoal hs
    rcases step_cases hs with ⟨env, rfl, rfl⟩ | ⟨env, rfl, rfl⟩ | ⟨env, rfl, rfl⟩ | ⟨rfl, rfl⟩
    · exact Or.inl (by simp [stepOf, ticksPopped])
    · rcases (strategyNext_slack env hrunning (none_exited hrun hrunning).1).2 with hle | ⟨-, hq⟩
      · exact Or.inl hle
      · -- an empty queue: all pushed so far is popped
        have hcarries : LTS.seen ticksPushed (h ++ h0) = LTS.seen ticksPopped (h ++ h0) ++
            p.shared.marketDataQueue.items := (run_conserved hrun).ticks
        have hpushed := seen_le ticksPushed h0 h
        rw [hcarries, hq, List.append_nil] at hpushed
        omega
    · exact Or.inl (by simp [stepOf, ticksPopped])
    · exact Or.inr rfl

/-- Four steps of the execution make an order, as long as one of the signals pushed before the start
is left. -/
theorem execution_pace (hr0 : (pipeline N M decode).Run h0 p0)
    (hr : ((pipeline N M decode).since p0).Run h p) (hrunning : p.shared.clientRunning = true) :
    h.countP (stepOf .execution) + 1 ≤ 4 + 4 * (LTS.seen executed h).length ∨
      (LTS.seen signalsPushed h0).length ≤ (LTS.seen executed (h ++ h0)).length := by
  have hpace := pace .execution executed (fun p => p.execution.slack)
    (LTS.seen signalsPushed h0).length hr0 ?_ ?_ hr hrunning
  · have hstart : p0.execution.slack ≤ 4 := by cases p0.execution <;> simp [ExecutionPc.slack]
    exact hpace.imp (fun hle => by omega) id
  · intro h p hrun hrunning _
    have hne := (none_exited hrun hrunning).2
    cases hpc : p.execution <;> simp_all [ExecutionPc.slack]
  · intro h p e p' hrun hrunning hgoal hs
    rcases step_cases hs with ⟨env, rfl, rfl⟩ | ⟨env, rfl, rfl⟩ | ⟨env, rfl, rfl⟩ | ⟨rfl, rfl⟩
    · exact Or.inl (by simp [stepOf, executed])
    · exact Or.inl (by simp [stepOf, executed])
    · rcases (executionNext_slack env hrunning (none_exited hrun hrunning).2).2 with
        hle | ⟨hpc, hq⟩
      · exact Or.inl hle
      · -- an empty queue, and no signal in hand
        have hcarries : LTS.seen signalsPushed (h ++ h0) = LTS.seen signalsPopped (h ++ h0) ++
            p.shared.signalQueue.items := (run_conserved hrun).signals
        have hmade := (run_conserved hrun).execution.signals
        rw [hpc] at hmade
        have hhand : LTS.seen signalsPopped (h ++ h0) = LTS.seen executed (h ++ h0) :=
          hmade.trans (List.append_nil _)
        have hpushed := seen_le signalsPushed h0 h
        rw [hcarries, hq, List.append_nil, hhand] at hpushed
        omega
    · exact Or.inr rfl

/-! ## What is in flight -/

/-- While `m_client_running` is set, what is counted is pushed, but for a tick in hand. -/
theorem counted_pushed (hr : (pipeline N M decode).Run h p)
    (hrunning : p.shared.clientRunning = true) :
    LTS.seen counted h = LTS.seen ticksPushed h ++ p.receive.hand := by
  have hreceive := (run_conserved hr).receive
  have hnone : LTS.seen abandoned h = [] := by
    rcases hreceive.last with hnone | ⟨hclear, -⟩
    · exact hnone
    · exact absurd hrunning (by simp [hclear])
  rw [hreceive.ticks, hnone, List.append_nil]

theorem hand_le (pc : ReceivePc) : pc.hand.length ≤ 1 := by cases pc <;> simp [ReceivePc.hand]

/-- What is pushed is popped or queued. -/
theorem pushed_popped (hr : (pipeline N M decode).Run h p) :
    (LTS.seen ticksPushed h).length =
      (LTS.seen ticksPopped h).length + p.shared.marketDataQueue.items.length := by
  have hcarries : LTS.seen ticksPushed h = LTS.seen ticksPopped h ++
      p.shared.marketDataQueue.items := (run_conserved hr).ticks
  rw [hcarries, List.length_append]

/-- As long as a tick counted before the start is not pushed, it is in the hands of `receive_loop`,
and no other tick takes the room that was there for it. -/
theorem in_hand (hr0 : (pipeline N M decode).Run h0 p0)
    (hrunning0 : p0.shared.clientRunning = true)
    (hr : (pipeline N M decode).Run (h ++ h0) p) (hrunning : p.shared.clientRunning = true)
    (hgoal : (LTS.seen ticksPushed (h ++ h0)).length < (LTS.seen counted h0).length) :
    p.receive.hand ≠ [] ∧ (LTS.seen ticksPushed (h ++ h0)).length =
      (LTS.seen ticksPushed h0).length := by
  have hbefore := congrArg List.length (counted_pushed hr0 hrunning0)
  have hafter := congrArg List.length (counted_pushed hr hrunning)
  rw [List.length_append] at hbefore hafter
  have hone := hand_le p0.receive
  have hcounted := seen_le counted h0 h
  have hpushed := seen_le ticksPushed h0 h
  refine ⟨fun hnil => ?_, by omega⟩
  rw [hnil, List.length_nil] at hafter
  omega

/-- **The pace of a push.** With room in the queue, three steps of `receive_loop` push the tick in
hand. -/
theorem network_pace (hr0 : (pipeline N M decode).Run h0 p0)
    (hroom : p0.shared.marketDataQueue.items.length < N)
    (hr : ((pipeline N M decode).since p0).Run h p) (hrunning : p.shared.clientRunning = true)
    (hsteps : 3 ≤ h.countP (stepOf .network)) :
    (LTS.seen counted h0).length ≤ (LTS.seen ticksPushed (h ++ h0)).length := by
  have hrunning0 := running_since hr hrunning
  have hpace := pace .network ticksPushed (fun p => p.receive.slack) (LTS.seen counted h0).length
    hr0 ?_ ?_ hr hrunning
  · rcases hpace with hle | hgoal
    · have hstart : p0.receive.slack ≤ 3 := by cases p0.receive <;> simp [ReceivePc.slack]
      have hbefore := congrArg List.length (counted_pushed hr0 hrunning0)
      have hone := hand_le p0.receive
      rw [List.length_append] at hbefore
      rw [LTS.seen_append, List.length_append]
      omega
    · exact hgoal
  · intro h p hrun hrunning hgoal
    have hhand := (in_hand hr0 hrunning0 hrun hrunning hgoal).1
    cases hpc : p.receive <;> simp_all [ReceivePc.slack, ReceivePc.hand]
  · intro h p e p' hrun hrunning hgoal hs
    obtain ⟨hhand, hsame⟩ := in_hand hr0 hrunning0 hrun hrunning hgoal
    rcases step_cases hs with ⟨env, rfl, rfl⟩ | ⟨env, rfl, rfl⟩ | ⟨env, rfl, rfl⟩ | ⟨rfl, rfl⟩
    · have hroom' : p.shared.marketDataQueue.items.length < N := by
        have hqueued := pushed_popped hrun
        have hqueued0 := pushed_popped hr0
        have hpopped := seen_le ticksPopped h0 h
        omega
      rcases receiveNext_slack decode env hrunning hhand hroom' with hle | hpush
      · exact Or.inl (Nat.le_add_right_of_le hle)
      · left
        have hnext : (receiveNext decode env p.receive p.shared).2.1.slack ≤ 3 := by
          cases (receiveNext decode env p.receive p.shared).2.1 <;> simp [ReceivePc.slack]
        simp only [hpush, stepOf, decide_true, Bool.toNat_true]
        omega
    · exact Or.inl (by simp [stepOf, ticksPushed])
    · exact Or.inl (by simp [stepOf, ticksPushed])
    · exact Or.inr rfl

/-! ## How long a tick and a signal wait -/

/-- **The latency of a tick.** All ticks counted by some moment are popped once the strategy has
made four steps from then on, after these the network thread three, and after these the strategy
`4 * N`, whatever else is done in between, if `m_client_running` is still set then. -/
theorem tick_latency {hA hB hC : List Label} {pA pB pC : Pipeline N M} (hN : 0 < N)
    (hr0 : (pipeline N M decode).Run h0 p0) (hA' : ((pipeline N M decode).since p0).Run hA pA)
    (hB' : ((pipeline N M decode).since pA).Run hB pB)
    (hC' : ((pipeline N M decode).since pB).Run hC pC) (hrunning : pC.shared.clientRunning = true)
    (hstrategy : 4 ≤ hA.countP (stepOf .strategy)) (hnetwork : 3 ≤ hB.countP (stepOf .network))
    (hdrain : 4 * N ≤ hC.countP (stepOf .strategy)) :
    LTS.seen counted h0 <+: LTS.seen ticksPopped (hC ++ (hB ++ (hA ++ h0))) := by
  have hrunB := running_since hC' hrunning
  have hrunA := running_since hB' hrunB
  have hrA := hr0.append hA'
  have hrB := hrA.append hB'
  have hrC := hrB.append hC'
  -- first there is room in the queue, or the tick in hand is in it already
  have hpushed : (LTS.seen counted h0).length ≤
      (LTS.seen ticksPushed (hB ++ (hA ++ h0))).length := by
    by_cases hgoal : (LTS.seen counted h0).length ≤ (LTS.seen ticksPushed (hA ++ h0)).length
    · exact hgoal.trans (seen_le _ _ _)
    · have hroom : pA.shared.marketDataQueue.items.length < N := by
        obtain ⟨-, hsame⟩ := in_hand hr0 (running_since hA' hrunA) hrA hrunA (by omega)
        have hqueued := pushed_popped hrA
        have hqueued0 := pushed_popped hr0
        have hbound := p0.shared.marketDataQueue.bound
        rcases strategy_pace hr0 hA' hrunA with hle | hall
        · rw [LTS.seen_append ticksPopped, List.length_append] at hqueued
          omega
        · omega
      exact (seen_le counted h0 hA).trans (network_pace hrA hroom hB' hrunB hnetwork)
  -- then the queue is worked off
  have hpopped : (LTS.seen counted h0).length ≤
      (LTS.seen ticksPopped (hC ++ (hB ++ (hA ++ h0)))).length := by
    rcases strategy_pace hrB hC' hrunning with hle | hall
    · have hqueued := pushed_popped hrB
      have hbound := pB.shared.marketDataQueue.bound
      rw [LTS.seen_append, List.length_append]
      omega
    · exact hpushed.trans hall
  have hprefix : LTS.seen ticksPopped (hC ++ (hB ++ (hA ++ h0))) <+:
      LTS.seen counted (hC ++ (hB ++ (hA ++ h0))) := by
    have hcarries : LTS.seen ticksPushed (hC ++ (hB ++ (hA ++ h0))) =
        LTS.seen ticksPopped (hC ++ (hB ++ (hA ++ h0))) ++ pC.shared.marketDataQueue.items :=
      (run_conserved hrC).ticks
    rw [counted_pushed hrC hrunning, hcarries, List.append_assoc]
    exact List.prefix_append _ _
  refine List.prefix_of_prefix_length_le ?_ hprefix hpopped
  rw [LTS.seen_append, LTS.seen_append, LTS.seen_append, List.append_assoc, List.append_assoc]
  exact List.prefix_append _ _

/-- The loops before their first step, with room for one tick and one signal. -/
def fresh : Pipeline 1 1 :=
  ⟨.test, .test, .test, ⟨true, Fifo.empty, Fifo.empty, ⟨true, true, 0, 0⟩, 0, 0, 1⟩⟩

/-- A tick that is bought at, and the answers that bring it. -/
def cheap : MarketData := ⟨1, 180, 180, 0, Vector.replicate 8 65⟩

def answers : Answers :=
  ⟨some (List.replicate 40 0), true, ⟨Vector.replicate 8 0, .hold, 0, 0, 0⟩, 0⟩

/-- So many steps of a loop. -/
def stepsOf (role : Role) (n : ℕ) (p : Pipeline 1 1) : List Label × Pipeline 1 1 :=
  (LTS.exec (next fun _ => cheap) (List.replicate n (.thread role answers)) ([], p)).getD ([], p)

theorem stepsOf_run (role : Role) (n : ℕ) (p : Pipeline 1 1)
    (hsome : (LTS.exec (next fun _ => cheap) (List.replicate n (.thread role answers))
      ([], p)).isSome = true) :
    ((pipeline 1 1 fun _ => cheap).since p).Run (stepsOf role n p).1 (stepsOf role n p).2 :=
  LTS.Run.exec_since (LTS.exec_getD hsome)

/-- Two ticks are counted; the second one finds the queue full. -/
def arrived : List Label × Pipeline 1 1 := stepsOf .network 10 fresh

theorem arrived_run : (pipeline 1 1 fun _ => cheap).Run arrived.1 arrived.2 := by
  have hstart : (pipeline 1 1 fun _ => cheap).Run [] fresh :=
    .start ⟨rfl, rfl, rfl, rfl, rfl, rfl, rfl, rfl⟩
  have hrun := hstart.append (stepsOf_run .network 10 fresh (by decide +kernel))
  rwa [List.append_nil] at hrun

/-- The strategy pops the first one, `receive_loop` pushes the second one, the strategy pops it. -/
def roomMade : List Label × Pipeline 1 1 := stepsOf .strategy 4 arrived.2
def pushedAfter : List Label × Pipeline 1 1 := stepsOf .network 3 roomMade.2
def drained : List Label × Pipeline 1 1 := stepsOf .strategy 4 pushedAfter.2

theorem tick_latency_two : LTS.seen counted arrived.1 = [cheap, cheap] ∧
    LTS.seen counted arrived.1 <+:
      LTS.seen ticksPopped (drained.1 ++ (pushedAfter.1 ++ (roomMade.1 ++ arrived.1))) :=
  ⟨by decide +kernel, tick_latency Nat.one_pos arrived_run
    (stepsOf_run .strategy 4 arrived.2 (by decide +kernel))
    (stepsOf_run .network 3 roomMade.2 (by decide +kernel))
    (stepsOf_run .strategy 4 pushedAfter.2 (by decide +kernel)) (by decide +kernel)
    (by decide +kernel) (by decide +kernel) (by decide +kernel)⟩

/-- **The latency of a signal.** All signals pushed by some moment are executed once the execution
thread has made `4 * (M + 1)` steps from then on. -/
theorem signal_latency (hr0 : (pipeline N M decode).Run h0 p0)
    (hr : ((pipeline N M decode).since p0).Run h p) (hrunning : p.shared.clientRunning = true)
    (hsteps : 4 * (M + 1) ≤ h.countP (stepOf .execution)) :
    LTS.seen signalsPushed h0 <+: LTS.seen executed (h ++ h0) := by
  have hwhole := hr0.append hr
  have hcarries0 : LTS.seen signalsPushed h0 = LTS.seen signalsPopped h0 ++
      p0.shared.signalQueue.items := (run_conserved hr0).signals
  have hcarries : LTS.seen signalsPushed (h ++ h0) = LTS.seen signalsPopped (h ++ h0) ++
      p.shared.signalQueue.items := (run_conserved hwhole).signals
  have hmade0 := (run_conserved hr0).execution.signals
  have hmade := (run_conserved hwhole).execution.signals
  have hexecuted : (LTS.seen signalsPushed h0).length ≤ (LTS.seen executed (h ++ h0)).length := by
    rcases execution_pace hr0 hr hrunning with hle | hall
    · have hone : p0.execution.hand.length ≤ 1 := by
        cases p0.execution <;> simp [ExecutionPc.hand]
      have hbound := p0.shared.signalQueue.bound
      rw [hcarries0, hmade0, LTS.seen_append, List.length_append, List.length_append,
        List.length_append]
      omega
    · exact hall
  have hprefix : LTS.seen executed (h ++ h0) <+: LTS.seen signalsPushed (h ++ h0) := by
    rw [hcarries, hmade, List.append_assoc]
    exact List.prefix_append _ _
  refine List.prefix_of_prefix_length_le ?_ hprefix hexecuted
  rw [LTS.seen_append]
  exact List.prefix_append _ _

/-- The first tick has become a signal, and this an order. -/
def made : List Label × Pipeline 1 1 := stepsOf .execution 8 roomMade.2

theorem signal_latency_two :
    (LTS.seen signalsPushed (roomMade.1 ++ arrived.1)).length = 1 ∧
    LTS.seen signalsPushed (roomMade.1 ++ arrived.1) <+:
      LTS.seen executed (made.1 ++ (roomMade.1 ++ arrived.1)) :=
  ⟨by decide +kernel, signal_latency
    (arrived_run.append (stepsOf_run .strategy 4 arrived.2 (by decide +kernel)))
    (stepsOf_run .execution 8 roomMade.2 (by decide +kernel)) (by decide +kernel)
    (by decide +kernel)⟩

end Pipeline

end Mms
