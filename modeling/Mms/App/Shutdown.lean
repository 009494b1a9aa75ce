import Mathlib.Algebra.Order.BigOperators.Group.List
import Mms.App.Lifecycle

/-!
# Winding down

`stop_client` clears `m_client_running` and returns; it neither waits for the loops nor wakes them.
`togo` counts the steps a loop can still make while the flag stays clear: it falls with each of
them, whatever the queues hold and whatever the environment answers.

* `workers_wind_down`: once the flag is clear, and until `work_client` sets it again, a network
  thread makes at most 7 steps and the other threads at most 4 each; then they have exited.
* `destructor_returns`: from the destruction of `p_market_feed` on, if no worker needs it any more,
  every run is finite; and as long as the destructor has not returned its next statement can run, or
  it joins a worker that can make its own next step.

A step of `receive_loop` may be a `recv` that takes its time; that it returns is not proved here. No
worker is in `receive_loop` any more where `destructor_returns` begins: with one there the rest of
the run would be a use after free (`Mms.App.Lifecycle`).
-/

namespace Mms

open Lib

/-! ## The steps a thread can still make -/

/-- The most steps `receive_loop` makes from here on while `m_client_running` is clear. -/
def ReceivePc.togo : ReceivePc → ℕ
  | .exited => 0
  | .test | .giveUp => 1
  | .retried | .spinTest _ => 2
  | .retry _ | .full _ | .spinPush _ => 3
  | .reconnect _ | .push _ => 4
  | .count _ => 5
  | .recv => 6
  | .client => 7

def StrategyPc.togo : StrategyPc → ℕ
  | .exited => 0
  | .test => 1
  | .count => 2
  | .push _ => 3
  | .pop => 4

def ExecutionPc.togo : ExecutionPc → ℕ
  | .exited => 0
  | .test => 1
  | .count => 2
  | .generate _ => 3
  | .pop => 4

def NetworkPc.togo : NetworkPc → ℕ
  | .exited => 0
  | .noFeed => 1
  | .enter => 2
  | .loop pc => pc.togo

variable {N M : ℕ} {s : Shared N M}

/-- **`receive_loop` comes closer to its end** with every step. -/
theorem receiveNext_togo (decode : Packet → MarketData) (env : Answers) {pc : ReceivePc}
    (hpc : pc ≠ .exited) (hs : s.clientRunning = false) :
    (receiveNext decode env pc s).2.1.togo < pc.togo := by
  cases pc with
  | test => simp [receiveNext, hs, ReceivePc.togo]
  | client =>
    simp only [receiveNext]
    split <;> decide
  | retry n =>
    simp only [receiveNext, hs]
    simp [ReceivePc.togo]
  | reconnect n =>
    simp only [receiveNext, MarketFeed.reconnect]
    split <;> simp [ReceivePc.togo]
  | retried =>
    simp only [receiveNext]
    split <;> decide
  | giveUp => exact Nat.one_pos
  | recv =>
    simp only [receiveNext]
    split
    · simp [ReceivePc.togo]
    · split <;> simp [ReceivePc.togo]
  | count md => simp [receiveNext, ReceivePc.togo]
  | push md =>
    simp only [receiveNext]
    split <;> simp [ReceivePc.togo]
  | full md => simp [receiveNext, ReceivePc.togo]
  | spinTest md => simp [receiveNext, hs, ReceivePc.togo]
  | spinPush md =>
    simp only [receiveNext]
    split <;> simp [ReceivePc.togo]
  | exited => exact absurd rfl hpc

theorem strategyNext_togo (env : Answers) {pc : StrategyPc} (hpc : pc ≠ .exited)
    (hs : s.clientRunning = false) : (strategyNext env pc s).2.1.togo < pc.togo := by
  cases pc with
  | test => simp [strategyNext, hs, StrategyPc.togo]
  | pop =>
    simp only [strategyNext]
    split
    · split <;> simp [StrategyPc.togo]
    · simp [StrategyPc.togo]
  | push signal =>
    simp only [strategyNext]
    split <;> simp [StrategyPc.togo]
  | count => simp [strategyNext, StrategyPc.togo]
  | exited => exact absurd rfl hpc

theorem executionNext_togo (env : Answers) {pc : ExecutionPc} (hpc : pc ≠ .exited)
    (hs : s.clientRunning = false) : (executionNext env pc s).2.1.togo < pc.togo := by
  cases pc with
  | test => simp [executionNext, hs, ExecutionPc.togo]
  | pop =>
    simp only [executionNext]
    split <;> simp [ExecutionPc.togo]
  | generate signal => simp [executionNext, ExecutionPc.togo]
  | count => simp [executionNext, ExecutionPc.togo]
  | exited => exact absurd rfl hpc

namespace Thread

/-- The most steps the thread makes from here on while `m_client_running` is clear. -/
def togo : Thread → ℕ
  | .network pc => pc.togo
  | .strategy pc => pc.togo
  | .execution pc => pc.togo

/-- The most steps a thread of the role makes while `m_client_running` is clear. -/
def windDown : Role → ℕ
  | .network => 7
  | .strategy | .execution => 4

theorem togo_le (t : Thread) : t.togo ≤ windDown t.role := by
  cases t with
  | network pc =>
    cases pc with
    | loop pc => cases pc <;> simp [togo, NetworkPc.togo, ReceivePc.togo, windDown, role]
    | _ => simp [togo, NetworkPc.togo, windDown, role]
  | strategy pc => cases pc <;> simp [togo, StrategyPc.togo, windDown, role]
  | execution pc => cases pc <;> simp [togo, ExecutionPc.togo, windDown, role]

/-- A thread that cannot step any more has left its loop, and the other way round. -/
theorem togo_pos {t : Thread} : 0 < t.togo ↔ t.live = true := by
  cases t with
  | network pc =>
    cases pc with
    | loop pc => cases pc <;> simp [togo, NetworkPc.togo, ReceivePc.togo, live]
    | _ => simp [togo, NetworkPc.togo, live]
  | strategy pc => cases pc <;> simp [togo, StrategyPc.togo, live]
  | execution pc => cases pc <;> simp [togo, ExecutionPc.togo, live]

theorem togo_exit (t : Thread) : t.exit.togo = 0 := by cases t <;> rfl

/-- **Every step of a thread** brings it closer to its end. -/
theorem togo_next (decode : Packet → MarketData) (env : Answers) (marketFeed : Bool) {t : Thread}
    (hlive : t.live = true) (hs : s.clientRunning = false) :
    (t.next decode env marketFeed s).2.1.togo < t.togo := by
  cases t with
  | network pc =>
    cases pc with
    | enter => cases marketFeed <;> simp [next, togo, NetworkPc.togo, ReceivePc.togo]
    | noFeed => simp [next, togo, NetworkPc.togo]
    | loop pc =>
      have hpc : pc ≠ .exited := by
        rintro rfl
        exact absurd hlive (by simp [live])
      exact receiveNext_togo decode env hpc hs
    | exited => exact absurd hlive (by simp [live])
  | strategy pc =>
    have hpc : pc ≠ .exited := by
      rintro rfl
      exact absurd hlive (by simp [live])
    exact strategyNext_togo env hpc hs
  | execution pc =>
    have hpc : pc ≠ .exited := by
      rintro rfl
      exact absurd hlive (by simp [live])
    exact executionNext_togo env hpc hs

end Thread

namespace Core

variable {decode : Packet → MarketData} {c c' c0 : Core N M} {l : Label} {h : List Label}

/-! ## Every worker -/

/-- The step is one of the worker `t`. -/
def stepOf (t : ℕ) : Label → Bool
  | .worker t' _ _ | .crash t' _ => t' == t
  | _ => false

theorem GoStep.stepOf (hg : GoStep c l c') (t : ℕ) : stepOf t l = false := by
  cases hg with
  | begins | started => rfl
  | assigned role => cases role <;> rfl
  | other _ _ _ hf =>
    generalize c'.control = k at hf
    cases hf with
    | afterStop dtor => cases dtor <;> rfl
    | _ => rfl

/-- The worker `t` makes a step, while `m_client_running` is clear. -/
structure Winds (c : Core N M) (t : ℕ) (l : Label) (c' : Core N M) : Prop where
  thread : ∃ thread thread', c.threads[t]? = some thread ∧ c'.threads = c.threads.set t thread' ∧
    thread'.role = thread.role ∧ thread'.togo < thread.togo
  control : c'.control = c.control
  label : ∀ t', stepOf t' l = (t == t')

/-- **A step while the flag is clear.** -/
theorem wind_cases (hclear : c.shared.clientRunning = false)
    (hs : (core N M decode).step c l c') :
    (∃ t, Winds c t l c') ∨
    (∃ call, c.control = .idle ∧ l = .call call ∧ c' = { c with control := call.entry }) ∨
    (GoStep c l c' ∧ ∀ t, stepOf t l = false) := by
  obtain ⟨m, hm⟩ := hs
  cases m with
  | worker t env =>
    simp only [next] at hm
    split at hm
    · rename_i thread hth
      split at hm
      · rename_i hlive
        simp only [Option.some.injEq, Prod.mk.injEq] at hm
        obtain ⟨rfl, rfl⟩ := hm
        exact Or.inl ⟨t, ⟨thread, _, hth, rfl, Thread.role_next ..,
          Thread.togo_next decode env c.marketFeed hlive hclear⟩, rfl, fun _ => rfl⟩
      · exact absurd hm (by simp)
    · exact absurd hm (by simp)
  | crash t =>
    simp only [next] at hm
    split at hm
    · rename_i thread hth
      split at hm
      · rename_i hlive
        simp only [Option.some.injEq, Prod.mk.injEq] at hm
        obtain ⟨rfl, rfl⟩ := hm
        refine Or.inl ⟨t, ⟨thread, _, hth, rfl, thread.role_exit, ?_⟩, rfl, fun _ => rfl⟩
        rw [thread.togo_exit]
        exact Thread.togo_pos.mpr hlive
      · exact absurd hm (by simp)
    · exact absurd hm (by simp)
  | call call =>
    simp only [next] at hm
    split at hm
    · rename_i hidle
      simp only [Option.some.injEq, Prod.mk.injEq] at hm
      obtain ⟨rfl, rfl⟩ := hm
      exact Or.inr (Or.inl ⟨call, hidle, rfl, rfl⟩)
    · exact absurd hm (by simp)
  | go ok =>
    have hg : GoStep c l c' := goStep_of_go hm
    exact Or.inr (Or.inr ⟨hg, hg.stepOf⟩)

/-- The statement that sets `m_client_running`. -/
def setsRunning : Label → Bool
  | .begins _ => true
  | _ => false

/-- `work_client` does not set `m_client_running`. -/
def NoBegin (_ : Core N M) (l : Label) : Prop := setsRunning l = false

instance (c : Core N M) (l : Label) : Decidable (NoBegin c l) := instDecidableEqBool _ _

/-- The steps of every worker and those it can still make, since the flag was clear. -/
structure WindingDown (h : List Label) (c : Core N M) : Prop where
  clear : c.shared.clientRunning = false
  steps : ∀ (t : ℕ) thread, c.threads[t]? = some thread →
    h.countP (stepOf t) + thread.togo ≤ Thread.windDown thread.role
  /-- A worker that has not been started has made no step. -/
  fresh : ∀ t, c.threads.length ≤ t → h.countP (stepOf t) = 0

theorem WindingDown.step (hw : WindingDown h c) (hl : NoBegin c l)
    (hs : (core N M decode).step c l c') : WindingDown (l :: h) c' := by
  have hclear : c'.shared.clientRunning = false := by
    rcases step_cases hs with ⟨t, hstep⟩ | ⟨call, -, -, rfl⟩ | hg
    · exact Bool.eq_false_iff.mpr fun hr => absurd (hstep.running hr) (by simp [hw.clear])
    · exact hw.clear
    · cases hg with
      | begins => exact absurd hl (by simp [NoBegin, setsRunning])
      | started | assigned => exact hw.clear
      | other _ _ hrunning _ =>
        exact Bool.eq_false_iff.mpr fun hr => absurd (hrunning hr) (by simp [hw.clear])
  rcases wind_cases hw.clear hs with ⟨t, hstep⟩ | ⟨call, -, rfl, rfl⟩ | ⟨hg, hnone⟩
  · obtain ⟨thread, thread', hth, hset, hrole, hlt⟩ := hstep.thread
    refine ⟨hclear, fun t' th hth' => ?_, fun t' ht' => ?_⟩
    · rw [hset] at hth'
      by_cases ht : t = t'
      · subst ht
        have hget := List.getElem?_set_self (a := thread') (List.getElem?_eq_some_iff.mp hth).1
        obtain rfl := Option.some.inj (hget.symm.trans hth')
        have hold := hw.steps t thread hth
        rw [List.countP_cons_of_pos (by simp [hstep.label]), hrole]
        omega
      · rw [List.getElem?_set_ne ht] at hth'
        rw [List.countP_cons_of_neg (by simp [hstep.label, ht])]
        exact hw.steps t' th hth'
    · rw [hset, List.length_set] at ht'
      have hne : t ≠ t' := by
        rintro rfl
        exact absurd (List.getElem?_eq_some_iff.mp hth).1 (Nat.not_lt.mpr ht')
      rw [List.countP_cons_of_neg (by simp [hstep.label, hne])]
      exact hw.fresh t' ht'
  · refine ⟨hclear, fun t th hth => ?_, fun t ht => ?_⟩
    · rw [List.countP_cons_of_neg (by simp [stepOf])]
      exact hw.steps t th hth
    · rw [List.countP_cons_of_neg (by simp [stepOf])]
      exact hw.fresh t ht
  · have hcount : ∀ t, (l :: h).countP (stepOf t) = h.countP (stepOf t) :=
      fun t => List.countP_cons_of_neg (by simp [hnone])
    have hsame : c'.threads = c.threads → WindingDown (l :: h) c' := by
      intro hthreads
      refine ⟨hclear, fun t th hth => ?_, fun t ht => ?_⟩
      · rw [hcount]
        exact hw.steps t th (hthreads ▸ hth)
      · rw [hcount]
        exact hw.fresh t (hthreads ▸ ht)
    cases hg with
    | begins => exact absurd hl (by simp [NoBegin, setsRunning])
    | assigned => exact hsame rfl
    | other hthreads => exact hsame hthreads
    | started role =>
      -- the new worker has all its steps before it
      refine ⟨hclear, fun t th hth => ?_, fun t ht => ?_⟩
      · rw [hcount]
        have hth' : (c.threads ++ [Thread.new role])[t]? = some th := hth
        rcases Nat.lt_or_ge t c.threads.length with hlt | hge
        · rw [List.getElem?_append_left hlt] at hth'
          exact hw.steps t th hth'
        · rw [hw.fresh t hge, Nat.zero_add]
          exact th.togo_le
      · rw [hcount]
        refine hw.fresh t (Nat.le_of_succ_le ?_)
        simpa using ht

/-- **The workers wind down.** From a core whose `m_client_running` is clear, in every run in which
`work_client` does not set it again, a network thread makes at most 7 steps and any other thread at
most 4, in whatever order the threads run; a thread that has made them all has left its loop. -/
theorem workers_wind_down (hclear : c0.shared.clientRunning = false)
    (hr : (((core N M decode).restrict NoBegin).since c0).Run h c) (t : ℕ) (thread : Thread)
    (hth : c.threads[t]? = some thread) :
    h.countP (stepOf t) ≤ Thread.windDown thread.role ∧
      (h.countP (stepOf t) = Thread.windDown thread.role → thread.live = false) := by
  have hw : WindingDown h c := by
    refine LTS.Run.invariant (I := WindingDown) (fun c hc => ?_) (fun h c l c' _ hw hs => ?_) hr
    · have hc' : c = c0 := hc
      rw [hc']
      refine ⟨hclear, fun t th _ => ?_, fun _ _ => rfl⟩
      rw [List.countP_nil, Nat.zero_add]
      exact th.togo_le
    · exact hw.step hs.1 hs.2
  have hle := hw.steps t thread hth
  refine ⟨by omega, fun he => ?_⟩
  exact Bool.eq_false_iff.mpr fun hlive => absurd (Thread.togo_pos.mpr hlive) (by omega)

/-- Some reading of the bytes. -/
def anyTick (b : Packet) : MarketData := ⟨b[0].toUInt64, 0, 0, 0, .replicate 8 0⟩

/-- Answers that bring a tick. -/
def oneTick : Answers := ⟨some (.replicate 40 1), true, ⟨.replicate 8 0, .hold, 0, 0, 0⟩, 0⟩

/-- `work_client`, and the three steps of the network thread to its `recv`. -/
def receiving : List Move :=
  [.call .workClient] ++ List.replicate 11 (.go true) ++ List.replicate 3 (.worker 0 oneTick)

/-- `stop_client` comes while the network thread is in `recv`. -/
def stopped : List Label × Core 4 4 :=
  (LTS.exec (next anyTick) (receiving ++ [.call .stopClient] ++ List.replicate 4 (.go true))
    ([], new 1)).getD ([], new 1)

/-- A tick arrives, is counted and pushed, and the thread leaves its loop. -/
theorem workers_wind_down_recv :
    ∃ h c, (((core 4 4 anyTick).restrict NoBegin).since stopped.2).Run h c ∧
      c.threads[0]? = some (.network (.loop .exited)) ∧ h.countP (stepOf 0) = 4 ∧
      h.countP (stepOf 0) ≤ 7 := by
  let r := (LTS.exec (LTS.guarded NoBegin (next anyTick)) (List.replicate 4 (.worker 0 oneTick))
    ([], stopped.2)).getD ([], stopped.2)
  have he : LTS.exec (LTS.guarded NoBegin (next anyTick)) (List.replicate 4 (.worker 0 oneTick))
      ([], stopped.2) = some r := LTS.exec_getD (by decide +kernel)
  have hr : (((core 4 4 anyTick).restrict NoBegin).since stopped.2).Run r.1 r.2 :=
    LTS.Run.exec_restrict_since he
  have hth : r.2.threads[0]? = some (.network (.loop .exited)) := by decide +kernel
  exact ⟨r.1, r.2, hr, hth, by decide +kernel,
    (workers_wind_down (by decide +kernel) hr 0 _ hth).1⟩

/-! ## The destructor -/

/-- `stop_client` or the destructor has cleared `m_client_running`, and the calls that could set it
again are behind it. -/
def ending : Control → Bool
  | .setStopped _ | .destroyFeed | .destroyThread _ | .destroyed => true
  | _ => false

/-- When `m_client_running` is clear. -/
structure Halts (c : Core N M) : Prop where
  /-- `work_client` sets it before it clears `m_client_stopped`. -/
  stopped : c.clientStopped = true → c.shared.clientRunning = true →
    c.control = .clearStopping ∨ c.control = .clearStopped
  ending : ending c.control = true → c.shared.clientRunning = false

theorem halts_new (orderIdCounter : UInt64) : (new orderIdCounter : Core N M).Halts where
  stopped h := absurd h (by simp [new])
  ending _ := rfl

/-- A step of a worker. -/
theorem Halts.worker (hh : c.Halts) (hcontrol : c'.control = c.control)
    (hstopped : c'.clientStopped = c.clientStopped)
    (hrunning : c'.shared.clientRunning = true → c.shared.clientRunning = true) : c'.Halts := by
  refine ⟨fun hs hr => ?_, fun he => ?_⟩
  · rw [hcontrol]
    exact hh.stopped (hstopped ▸ hs) (hrunning hr)
  · have hclear := hh.ending (hcontrol ▸ he)
    exact Bool.eq_false_iff.mpr fun hr => absurd (hrunning hr) (by simp [hclear])

/-- A stopped client does not run, away from the end of `work_client`. -/
theorem Halts.clear (hh : c.Halts)
    (hcontrol : c.control ≠ .clearStopping ∧ c.control ≠ .clearStopped)
    (hs : c.clientStopped = true) : c.shared.clientRunning = false :=
  Bool.eq_false_iff.mpr fun hr => (hh.stopped hs hr).elim hcontrol.1 hcontrol.2

/-- A statement that sets neither flag, away from the end of `work_client`. -/
theorem Halts.statement (hh : c.Halts)
    (hcontrol : c.control ≠ .clearStopping ∧ c.control ≠ .clearStopped)
    (hstopped : c'.clientStopped = c.clientStopped)
    (hrunning : c'.shared.clientRunning = true → c.shared.clientRunning = true)
    (hending : Core.ending c'.control = true → c.clientStopped = true ∨
      Core.ending c.control = true) : c'.Halts := by
  refine ⟨fun hs hr => ?_, fun he => ?_⟩
  · exact absurd (hrunning hr) (by simp [hh.clear hcontrol (hstopped ▸ hs)])
  · have hclear : c.shared.clientRunning = false := (hending he).elim (hh.clear hcontrol) hh.ending
    exact Bool.eq_false_iff.mpr fun hr => absurd (hrunning hr) (by simp [hclear])

theorem initializeClient_stopped (connected : Bool) (c : Core N M) :
    (c.initializeClient connected).2.clientStopped = c.clientStopped := by
  unfold initializeClient
  split
  · rfl
  · simp only
    split <;> rfl

/-- **The statements of the controlling thread.** -/
theorem Halts.go (hh : c.Halts) {ok : Bool} (hg : c.go ok = some (l, c')) : c'.Halts := by
  have hrunning := (initializeClient_frame ok c).2.2
  have hstopped := initializeClient_stopped ok c
  unfold Core.go at hg
  cases hc : c.control with
  | idle => simp [hc] at hg
  | destroyed => simp [hc] at hg
  | initClient =>
    simp only [hc, Option.some.injEq, Prod.mk.injEq] at hg
    obtain ⟨rfl, rfl⟩ := hg
    exact hh.statement (by simp [hc]) hstopped (fun hr => hrunning ▸ hr) (by simp [Core.ending])
  | workTest =>
    simp only [hc] at hg
    split at hg <;> simp only [Option.some.injEq, Prod.mk.injEq] at hg <;> obtain ⟨rfl, rfl⟩ := hg
    all_goals exact hh.statement (by simp [hc]) rfl id (by simp [Core.ending])
  | workInit =>
    simp only [hc] at hg
    split at hg <;> simp only [Option.some.injEq, Prod.mk.injEq] at hg <;> obtain ⟨rfl, rfl⟩ := hg
    all_goals
      exact hh.statement (by simp [hc]) hstopped (fun hr => hrunning ▸ hr) (by simp [Core.ending])
  | setRunning =>
    simp only [hc, Option.some.injEq, Prod.mk.injEq] at hg
    obtain ⟨rfl, rfl⟩ := hg
    exact ⟨fun _ _ => Or.inl rfl, fun he => absurd he (by simp [Core.ending])⟩
  | clearStopping =>
    simp only [hc, Option.some.injEq, Prod.mk.injEq] at hg
    obtain ⟨rfl, rfl⟩ := hg
    exact ⟨fun _ _ => Or.inr rfl, fun he => absurd he (by simp [Core.ending])⟩
  | clearStopped =>
    simp only [hc, Option.some.injEq, Prod.mk.injEq] at hg
    obtain ⟨rfl, rfl⟩ := hg
    exact ⟨fun hs => absurd hs (by simp), fun he => absurd he (by simp [Core.ending])⟩
  | create role =>
    simp only [hc] at hg
    split at hg <;> simp only [Option.some.injEq, Prod.mk.injEq] at hg <;> obtain ⟨rfl, rfl⟩ := hg
    all_goals exact hh.statement (by simp [hc]) rfl id (by simp [Core.ending])
  | assign role t =>
    simp only [hc] at hg
    split at hg
    · simp only [Option.some.injEq, Prod.mk.injEq] at hg
      obtain ⟨rfl, rfl⟩ := hg
      refine hh.statement (by simp [hc]) rfl id ?_
      cases role <;> simp [afterStart, Core.ending]
    · exact absurd hg (by simp)
  | stopTest dtor =>
    simp only [hc] at hg
    split at hg
    · rename_i hs
      simp only [Option.some.injEq, Prod.mk.injEq] at hg
      obtain ⟨rfl, rfl⟩ := hg
      exact hh.statement (by simp [hc]) rfl id fun _ => Or.inl hs
    · simp only [Option.some.injEq, Prod.mk.injEq] at hg
      obtain ⟨rfl, rfl⟩ := hg
      exact hh.statement (by simp [hc]) rfl id (by simp [Core.ending])
  | setStopping dtor =>
    simp only [hc, Option.some.injEq, Prod.mk.injEq] at hg
    obtain ⟨rfl, rfl⟩ := hg
    exact hh.statement (by simp [hc]) rfl id (by simp [Core.ending])
  | clearRunning dtor =>
    simp only [hc, Option.some.injEq, Prod.mk.injEq] at hg
    obtain ⟨rfl, rfl⟩ := hg
    exact ⟨fun _ hr => absurd hr (by simp), fun _ => rfl⟩
  | setStopped dtor =>
    have hclear : c.shared.clientRunning = false := hh.ending (by rw [hc]; rfl)
    simp only [hc, Option.some.injEq, Prod.mk.injEq] at hg
    obtain ⟨rfl, rfl⟩ := hg
    exact ⟨fun _ hr => absurd hr (by simp [hclear]), fun _ => hclear⟩
  | destroyFeed =>
    simp only [hc, Option.some.injEq, Prod.mk.injEq] at hg
    obtain ⟨rfl, rfl⟩ := hg
    exact hh.statement (by simp [hc]) rfl id fun _ => Or.inr (by rw [hc]; rfl)
  | destroyThread role =>
    simp only [hc] at hg
    split at hg
    · simp only [Option.some.injEq, Prod.mk.injEq] at hg
      obtain ⟨rfl, rfl⟩ := hg
      exact hh.statement (by simp [hc]) rfl id fun _ => Or.inr (by rw [hc]; rfl)
    · exact absurd hg (by simp)

theorem halts_step (hh : c.Halts) (hs : (core N M decode).step c l c') : c'.Halts := by
  obtain ⟨m, hm⟩ := hs
  cases m with
  | worker t env =>
    simp only [next] at hm
    split at hm
    · rename_i thread hth
      split at hm
      · simp only [Option.some.injEq, Prod.mk.injEq] at hm
        obtain ⟨rfl, rfl⟩ := hm
        exact hh.worker rfl rfl (Thread.running_next decode env c.marketFeed thread c.shared)
      · exact absurd hm (by simp)
    · exact absurd hm (by simp)
  | crash t =>
    simp only [next] at hm
    split at hm
    · split at hm
      · simp only [Option.some.injEq, Prod.mk.injEq] at hm
        obtain ⟨rfl, rfl⟩ := hm
        exact hh.worker rfl rfl fun hr => absurd hr (by simp)
      · exact absurd hm (by simp)
    · exact absurd hm (by simp)
  | call call =>
    simp only [next] at hm
    split at hm
    · rename_i hidle
      simp only [Option.some.injEq, Prod.mk.injEq] at hm
      obtain ⟨rfl, rfl⟩ := hm
      refine hh.statement (by simp [hidle]) rfl id ?_
      cases call <;> simp [Call.entry, Core.ending]
    · exact absurd hm (by simp)
  | go ok => exact hh.go hm

theorem reachable_halts (hr : (core N M decode).Reachable c) : c.Halts :=
  hr.invariant (fun _ ⟨n, hn⟩ => hn ▸ halts_new n) fun _ _ _ => halts_step

/-! ### The rank -/

/-- The statements the destructor still makes, from the destruction of `p_market_feed` on. -/
def controlRank : Control → ℕ
  | .destroyFeed => 4
  | .destroyThread .execution => 3
  | .destroyThread .strategy => 2
  | .destroyThread .network => 1
  | _ => 0

/-- The steps a core in its destructor can still make. -/
def toDestroyed (c : Core N M) : ℕ := (c.threads.map Thread.togo).sum + controlRank c.control

/-- A thread that is done with the feed makes at most 4 steps. -/
theorem togo_le_of_done {t : Thread} (hdone : t.usesFeed = false) : t.togo ≤ 4 := by
  cases t with
  | network pc =>
    cases pc with
    | enter => exact absurd hdone (by decide)
    | loop pc =>
      have hpc : pc = .exited := by simpa [Thread.usesFeed] using hdone
      rw [hpc]
      exact Nat.zero_le 4
    | noFeed => exact show 1 ≤ 4 by decide
    | exited => exact Nat.zero_le 4
  | strategy pc => exact Thread.togo_le (.strategy pc)
  | execution pc => exact Thread.togo_le (.execution pc)

theorem sum_togo_le {threads : List Thread} (hdone : ∀ thread ∈ threads, thread.usesFeed = false) :
    (threads.map Thread.togo).sum ≤ 4 * threads.length := by
  have hle := List.sum_le_card_nsmul (threads.map Thread.togo) 4 fun n hn => by
    obtain ⟨t, ht, rfl⟩ := List.mem_map.mp hn
    exact togo_le_of_done (hdone t ht)
  rw [List.length_map, nsmul_eq_mul, Nat.cast_id, Nat.mul_comm] at hle
  exact hle

/-- A thread that comes closer to its end brings all of them closer. -/
theorem sum_togo_set {threads : List Thread} {t : ℕ} {thread thread' : Thread}
    (hth : threads[t]? = some thread) (hlt : thread'.togo < thread.togo) :
    ((threads.set t thread').map Thread.togo).sum < (threads.map Thread.togo).sum := by
  induction threads generalizing t with
  | nil => exact absurd hth (by simp)
  | cons th threads ih =>
    cases t with
    | zero =>
      obtain rfl : th = thread := Option.some.inj hth
      simp only [List.set_cons_zero, List.map_cons, List.sum_cons]
      omega
    | succ t =>
      have hrest := ih (t := t) hth
      simp only [List.set_cons_succ, List.map_cons, List.sum_cons]
      omega

/-- The destructor is at the destruction of `p_market_feed` or past it. -/
def Falling (c : Core N M) : Prop := c.control = .destroyFeed ∨ c.Destroying

theorem Falling.ending (hf : c.Falling) : Core.ending c.control = true := by
  rcases hf with hc | ⟨role, hc⟩ | hc <;> rw [hc] <;> rfl

/-- **The destructor comes closer to its end** with every step, of whatever thread. -/
theorem falling_step (hh : c.Halts) (hf : c.Falling) (hs : (core N M decode).step c l c') :
    c'.Falling ∧ c'.toDestroyed < c.toDestroyed := by
  have hclear := hh.ending hf.ending
  rcases wind_cases hclear hs with ⟨t, hw⟩ | ⟨call, hidle, -, -⟩ | ⟨hg, -⟩
  · obtain ⟨thread, thread', hth, hset, -, hlt⟩ := hw.thread
    refine ⟨?_, ?_⟩
    · unfold Falling Destroying
      rw [hw.control]
      exact hf
    · have hsum := sum_togo_set hth hlt
      unfold toDestroyed
      rw [hset, hw.control]
      omega
  · exact absurd hf.ending (by simp [hidle, Core.ending])
  · have hend := hf.ending
    cases hg with
    | begins hc | started role hc | assigned role t hc =>
      exact absurd hend (by simp [hc, Core.ending])
    | other hthreads _ _ hfollows =>
      unfold toDestroyed
      rw [hthreads]
      unfold Falling Destroying
      generalize c'.control = k at hfollows ⊢
      cases hfollows with
      | feed hc =>
        rw [hc]
        exact ⟨Or.inr (Or.inl ⟨_, rfl⟩), by simp [controlRank]⟩
      | joined role hc =>
        rw [hc]
        cases role <;> simp [afterJoin, controlRank]
      | stop dtor k hc hk =>
        rcases hc with hc | hc | hc <;> exact absurd hend (by simp [hc, Core.ending])
      | afterStop dtor hc =>
        -- `setStopped` is not past the destruction of the feed
        rcases hc with hc | hc
        · exact absurd hend (by simp [hc, Core.ending])
        · rcases hf with hc' | ⟨role, hc'⟩ | hc' <;> exact absurd (hc.symm.trans hc') (by simp)
      | _ => exact absurd hend (by simp [‹c.control = _›, Core.ending])

/-- From the destruction of the feed on the destructor starts no thread. -/
theorem Falling.threads (hf : c.Falling) (hs : (core N M decode).step c l c') :
    (∃ t, WorkerStep c t l c') ∨ c'.threads = c.threads := by
  have hend := hf.ending
  rcases step_cases hs with hw | ⟨call, hidle, -, -⟩ | hg
  · exact Or.inl hw
  · exact absurd hend (by simp [hidle, Core.ending])
  · cases hg with
    | begins hc | started role hc | assigned role t hc =>
      exact absurd hend (by simp [hc, Core.ending])
    | other hthreads => exact Or.inr hthreads

/-- A live worker can make its next step, whatever the environment answers. -/
theorem worker_of_live {t : ℕ} {thread : Thread} (hth : c.threads[t]? = some thread)
    (hlive : thread.live = true) (decode : Packet → MarketData) (env : Answers) :
    ∃ act c', next decode (.worker t env) c = some (.worker t thread.role act, c') := by
  simp only [next, hth, hlive, if_true]
  exact ⟨_, _, rfl⟩

/-- A member that cannot be joined yet owns a live thread. -/
theorem live_of_not_joined {role : Role} (hj : c.joined role = false) :
    ∃ t thread, c.jthread role = some t ∧ c.threads[t]? = some thread ∧ thread.live = true := by
  unfold joined at hj
  split at hj
  · rename_i thread hth
    obtain ⟨t, ht, hget⟩ := Option.bind_eq_some_iff.mp hth
    exact ⟨t, thread, ht, hget, by simpa using hj⟩
  · exact absurd hj (by decide)

/-- The destructor is at the join of a member, and the thread it waits for can make its own next
step, whatever the environment answers, and not in `receive_loop`. -/
def Joins (decode : Packet → MarketData) (c : Core N M) : Prop :=
  ∃ role t thread, c.control = .destroyThread role ∧ c.jthread role = some t ∧
    c.threads[t]? = some thread ∧ thread.usesFeed = false ∧
    ∀ env, ∃ act c', next decode (.worker t env) c = some (.worker t thread.role act, c')

/-- **A core in its destructor is never stuck.** -/
theorem progress_of_falling (hf : c.Falling)
    (hdone : ∀ thread ∈ c.threads, thread.usesFeed = false) :
    c.control = .destroyed ∨ (∀ ok, (next decode (.go ok) c).isSome = true) ∨ Joins decode c := by
  rcases hf with hc | ⟨role, hc⟩ | hc
  · exact Or.inr (Or.inl fun ok => by simp [next, go, hc])
  · cases hj : c.joined role with
    | true => exact Or.inr (Or.inl fun ok => by simp [next, go, hc, hj])
    | false =>
      obtain ⟨t, thread, ht, hth, hlive⟩ := live_of_not_joined hj
      exact Or.inr (Or.inr ⟨role, t, thread, hc, ht, hth, hdone thread (List.mem_of_getElem? hth),
        worker_of_live hth hlive decode⟩)
  · exact Or.inl hc

/-- **The destructor returns**, if no worker needs `p_market_feed` when it is destroyed. From then
on every run of the core and its worker threads is finite, in whatever order they step; and until
the destructor is through its next statement can run, or it joins a worker that can go on. -/
theorem destructor_returns (hc0 : (core N M decode).Reachable c0)
    (hcontrol : c0.control = .destroyFeed)
    (hdone : ∀ thread ∈ c0.threads, thread.usesFeed = false)
    (hr : ((core N M decode).since c0).Run h c) :
    h.length ≤ 4 * c0.threads.length + 4 ∧
      (c.control = .destroyed ∨ (∀ ok, (next decode (.go ok) c).isSome = true) ∨
        Joins decode c) := by
  obtain ⟨⟨-, hf, hdone'⟩, hlen⟩ := LTS.Run.length_add_rank_le
    (I := fun c => c.Halts ∧ c.Falling ∧ ∀ thread ∈ c.threads, thread.usesFeed = false)
    toDestroyed ⟨reachable_halts hc0, Or.inl hcontrol, hdone⟩ (fun c l c' hi hs => by
      obtain ⟨hh, hf, hdone⟩ := hi
      obtain ⟨hf', hlt⟩ := falling_step hh hf hs
      exact ⟨⟨halts_step hh hs, hf', done_of_threads hdone (hf.threads hs)⟩, hlt⟩) hr
  have hstart : toDestroyed c0 ≤ 4 * c0.threads.length + 4 := by
    have hle := sum_togo_le hdone
    rw [toDestroyed, hcontrol]
    exact Nat.add_le_add_right hle 4
  exact ⟨by omega, progress_of_falling hf hdone'⟩

/-- The destructor comes while the network thread is in `recv`, which returns before the feed is
destroyed. -/
def destructing : List Move :=
  receiving ++ [.call .destructor] ++ List.replicate 4 (.go true) ++
    List.replicate 4 (.worker 0 oneTick)

/-- It gets as far as the destruction of `p_market_feed`. -/
def destroying : List Label × Core 4 4 :=
  (LTS.exec (next anyTick) destructing ([], new 1)).getD ([], new 1)

/-- The other two loops find the flag clear. -/
def joining : List Move :=
  [.go true, .worker 1 oneTick, .worker 2 oneTick] ++ List.replicate 3 (.go true)

/-- The destructor is through after six steps. -/
theorem destructor_returns_recv :
    ∃ h c, ((core 4 4 anyTick).since destroying.2).Run h c ∧ c.control = .destroyed ∧
      h.length = 6 ∧ h.length ≤ 4 * destroying.2.threads.length + 4 := by
  have hbegun : LTS.exec (next anyTick) destructing ([], new 1) = some destroying :=
    LTS.exec_getD (by decide +kernel)
  have hreach : (core 4 4 anyTick).Run destroying.1 destroying.2 :=
    LTS.Run.exec (.start ⟨1, rfl⟩) hbegun
  let r := (LTS.exec (next anyTick) joining ([], destroying.2)).getD ([], destroying.2)
  have he : LTS.exec (next anyTick) joining ([], destroying.2) = some r :=
    LTS.exec_getD (by decide +kernel)
  have hr : ((core 4 4 anyTick).since destroying.2).Run r.1 r.2 := LTS.Run.exec_since he
  have hlen := (destructor_returns ⟨_, hreach⟩ (by decide +kernel) (by decide +kernel) hr).1
  exact ⟨r.1, r.2, hr, by decide +kernel, by decide +kernel, hlen⟩

end Core

end Mms
