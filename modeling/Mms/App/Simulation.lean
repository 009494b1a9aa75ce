import Mms.App.Orders
import Mms.App.Program

/-!
# The client program runs the pipeline

`Mms.App.Pipeline` starts its three loops at once and lets a stop come at any time. The program
starts its workers one by one, while those started already run, and its network thread has a
statement of its own before `receive_loop`.

* `simulates`: still, every run of the program in which no worker throws is, up to the destruction
  of `p_market_feed`, a run of that pipeline, as far as one can tell from the shared objects and
  from what the loops do to them. So what `Mms.App.Pipeline`, `Mms.App.Orders` and `Mms.App.Retry`
  say of the pipeline holds of the program.
* `program_orders`: the orders of the program are made of the ticks it has counted.
-/

namespace Mms

open Lib

namespace Controller

open Mms.Core (rank pipelineRoles setsRunning)

variable {N M : ℕ} {decode : Packet → MarketData} {s s' : Controller N M} {l : Core.Label}
  {h : List Core.Label}

/-! ## The pipeline of a core -/

/-- Where the loop of a worker stands; one that has not been started is before its first step. -/
def receiveOf : Option Thread → ReceivePc
  | some (.network (.loop pc)) => pc
  | _ => .test

def strategyOf : Option Thread → StrategyPc
  | some (.strategy pc) => pc
  | _ => .test

def executionOf : Option Thread → ExecutionPc
  | some (.execution pc) => pc
  | _ => .test

/-- The three loops of a core, and what they share. -/
def pipelineOf (c : Core N M) : Pipeline N M :=
  ⟨receiveOf c.threads[0]?, strategyOf c.threads[1]?, executionOf c.threads[2]?, c.shared⟩

/-- The step of the pipeline that a step of a worker is. -/
def pipelineStep : Core.Label → Option Pipeline.Label
  | .worker _ role act => some (.thread role act)
  | _ => none

/-- What the workers of the program do, read as of the pipeline. -/
def read {α : Type} (f : Pipeline.Label → Option α) (h : List Core.Label) : List α :=
  LTS.seen (fun l => (pipelineStep l).bind f) h

/-- No worker throws, and `p_market_feed` is not destroyed. -/
def smooth : Core.Label → Bool
  | .crash .. | .feedDestroyed => false
  | _ => true

def Smooth (_ : Controller N M) (l : Core.Label) : Prop := smooth l = true

instance (s : Controller N M) (l : Core.Label) : Decidable (Smooth s l) := instDecidableEqBool _ _

/-- What is read sees neither a step that does nothing nor the stop. -/
def Visible {α : Type} (f : Pipeline.Label → Option α) : Prop :=
  (∀ role, f (.thread role .tau) = none) ∧ f .stop = none

/-- The run of the pipeline that a run of the program is. -/
def Matched (decode : Packet → MarketData) (h : List Core.Label) (c : Core N M) : Prop :=
  ∃ hp, (Pipeline.pipeline N M decode).Run hp (pipelineOf c) ∧
    ∀ (α : Type) (f : Pipeline.Label → Option α), Visible f → LTS.seen f hp = read f h

/-- A step that the pipeline does not see. -/
theorem Matched.stutter {c c' : Core N M} (hm : Matched decode h c)
    (hp : pipelineOf c' = pipelineOf c)
    (hl : pipelineStep l = none ∨ ∃ role, pipelineStep l = some (.thread role .tau)) :
    Matched decode (l :: h) c' := by
  obtain ⟨hp', hrun, hseen⟩ := hm
  refine ⟨hp', hp ▸ hrun, fun α f hf => ?_⟩
  rw [read, LTS.seen_cons, hseen α f hf]
  rcases hl with hl | ⟨role, hl⟩
  · simp [read, hl]
  · simp [read, hl, hf.1 role]

/-- A step of a loop. -/
theorem Matched.thread {c c' : Core N M} {t : ℕ} {role : Role} {act : Act}
    (hm : Matched decode h c) (hs : (Pipeline.pipeline N M decode).step (pipelineOf c)
      (.thread role act) (pipelineOf c')) : Matched decode (.worker t role act :: h) c' := by
  obtain ⟨hp, hrun, hseen⟩ := hm
  refine ⟨_, hrun.next hs, fun α f hf => ?_⟩
  rw [read, LTS.seen_cons, LTS.seen_cons, hseen α f hf]
  rfl

/-- The clearing of `m_client_running`. -/
theorem Matched.stop {c c' : Core N M} (hm : Matched decode h c)
    (hp : pipelineOf c' = { pipelineOf c with
      shared := { c.shared with clientRunning := false } })
    (hl : pipelineStep l = none) : Matched decode (l :: h) c' := by
  obtain ⟨hp', hrun, hseen⟩ := hm
  have hs : (Pipeline.pipeline N M decode).step (pipelineOf c) .stop (pipelineOf c') :=
    ⟨.stop, by rw [hp]; rfl⟩
  refine ⟨_, hrun.next hs, fun α f hf => ?_⟩
  rw [read, LTS.seen_cons, LTS.seen_cons, hseen α f hf, hf.2, hl]
  rfl

/-! ## A step of a worker -/

/-- A worker stands at the place of its role. -/
theorem Sound.position {n m t : ℕ} {flag : Bool} {thread : Thread} (ho : Sound h s n m flag)
    (hth : s.core.threads[t]? = some thread) : t = rank thread.role := by
  have hrole : s.core.roles[t]? = some thread.role := by
    unfold Core.roles
    rw [List.getElem?_map, hth]
    rfl
  rw [ho.roles] at hrole
  have hat : pipelineRoles[t]? = some thread.role := by
    rw [List.getElem?_take] at hrole
    split at hrole
    · exact hrole
    · exact absurd hrole (by simp)
  rcases t with _ | _ | _ | t
  · rw [← Option.some.inj hat]
    rfl
  · rw [← Option.some.inj hat]
    rfl
  · rw [← Option.some.inj hat]
    rfl
  · exact absurd hat (by simp [pipelineRoles])

/-- No network thread has thrown or found the feed missing. -/
def Sane (c : Core N M) : Prop :=
  c.marketFeed = true ∧ ∀ thread ∈ c.threads, thread ≠ .network .noFeed ∧ thread ≠ .network .exited

/-- **A step of a worker** is one of its loop, or the first of the network thread. -/
theorem Matched.worker {n m t : ℕ} {flag : Bool} {env : Answers} {c' : Core N M}
    (hm : Matched decode h s.core) (ho : Sound h s n m flag) (hsane : Sane s.core)
    (hn : Core.next decode (.worker t env) s.core = some (l, c')) :
    Matched decode (l :: h) c' ∧ Sane c' := by
  simp only [Core.next] at hn
  split at hn
  · rename_i thread hth
    have ht := ho.position hth
    have hlt := (List.getElem?_eq_some_iff.mp hth).1
    obtain ⟨hfeed, hthreads⟩ := hsane
    have hset : ∀ thread', thread' ≠ .network .noFeed ∧ thread' ≠ .network .exited →
        ∀ x ∈ s.core.threads.set t thread', x ≠ .network .noFeed ∧ x ≠ .network .exited := by
      intro thread' hthread' x hx
      rcases List.mem_or_eq_of_mem_set hx with hx | rfl
      · exact hthreads x hx
      · exact hthread'
    split at hn
    · simp only [Option.some.injEq, Prod.mk.injEq] at hn
      obtain ⟨rfl, rfl⟩ := hn
      have hthread := hthreads thread (List.mem_of_getElem? hth)
      cases thread with
      | network pc =>
        obtain rfl : t = 0 := ht
        cases pc with
        | noFeed => exact absurd rfl hthread.1
        | exited => exact absurd rfl hthread.2
        | enter =>
          refine ⟨hm.stutter ?_ (Or.inr ⟨.network, rfl⟩), hfeed, hset _ ?_⟩
          · simp [pipelineOf, Thread.next, hfeed, hth, receiveOf, List.getElem?_set_self hlt]
          · simp [Thread.next, hfeed]
        | loop pc =>
          refine ⟨hm.thread ⟨.thread .network env, ?_⟩, hfeed, hset _ ?_⟩
          · simp [pipelineOf, Pipeline.next, Thread.next, hth, receiveOf,
              List.getElem?_set_self hlt, Thread.role]
          · simp [Thread.next]
      | strategy pc =>
        obtain rfl : t = 1 := ht
        refine ⟨hm.thread ⟨.thread .strategy env, ?_⟩, hfeed, hset _ ?_⟩
        · simp [pipelineOf, Pipeline.next, Thread.next, hth, strategyOf,
            List.getElem?_set_self hlt, Thread.role]
        · simp [Thread.next]
      | execution pc =>
        obtain rfl : t = 2 := ht
        refine ⟨hm.thread ⟨.thread .execution env, ?_⟩, hfeed, hset _ ?_⟩
        · simp [pipelineOf, Pipeline.next, Thread.next, hth, executionOf,
            List.getElem?_set_self hlt, Thread.role]
        · simp [Thread.next]
    · exact absurd hn (by simp)
  · exact absurd hn (by simp)

/-! ## A statement of `main` -/

/-- What a statement of the core does to the shared objects. -/
theorem go_shared {c c' : Core N M} {ok : Bool} (hg : c.go ok = some (l, c'))
    (hl : l ≠ .feedDestroyed) :
    (c'.marketFeed = c.marketFeed ∧ c'.clientStarted = c.clientStarted ∧
      (c'.shared = c.shared ∨ c'.shared = { c.shared with clientRunning := false })) ∨
    ((c.control = .initClient ∨ c.control = .workInit) ∧
      c'.marketFeed = (c.initializeClient ok).2.marketFeed ∧
      c'.shared = (c.initializeClient ok).2.shared ∧
      c'.clientStarted = (c.initializeClient ok).2.clientStarted) ∨
    c.control = .setRunning := by
  unfold Core.go at hg
  cases hc : c.control with
  | idle | destroyed => simp [hc] at hg
  | setRunning => exact Or.inr (Or.inr rfl)
  | initClient =>
    simp only [hc, Option.some.injEq, Prod.mk.injEq] at hg
    obtain ⟨rfl, rfl⟩ := hg
    exact Or.inr (Or.inl ⟨Or.inl rfl, rfl, rfl, rfl⟩)
  | workInit =>
    simp only [hc] at hg
    split at hg <;> simp only [Option.some.injEq, Prod.mk.injEq] at hg <;> obtain ⟨rfl, rfl⟩ := hg
    all_goals exact Or.inr (Or.inl ⟨Or.inr rfl, rfl, rfl, rfl⟩)
  | clearRunning dtor =>
    simp only [hc, Option.some.injEq, Prod.mk.injEq] at hg
    obtain ⟨rfl, rfl⟩ := hg
    exact Or.inl ⟨rfl, rfl, Or.inr rfl⟩
  | destroyFeed =>
    simp only [hc, Option.some.injEq, Prod.mk.injEq] at hg
    exact absurd hg.1.symm hl
  | clearStopping | clearStopped | setStopping dtor | setStopped dtor =>
    simp only [hc, Option.some.injEq, Prod.mk.injEq] at hg
    obtain ⟨rfl, rfl⟩ := hg
    exact Or.inl ⟨rfl, rfl, Or.inl rfl⟩
  | workTest | create role | stopTest dtor =>
    simp only [hc] at hg
    split at hg <;> simp only [Option.some.injEq, Prod.mk.injEq] at hg <;> obtain ⟨rfl, rfl⟩ := hg
    all_goals exact Or.inl ⟨rfl, rfl, Or.inl rfl⟩
  | assign role t | destroyThread role =>
    simp only [hc] at hg
    split at hg
    · simp only [Option.some.injEq, Prod.mk.injEq] at hg
      obtain ⟨rfl, rfl⟩ := hg
      exact Or.inl ⟨rfl, rfl, Or.inl rfl⟩
    · exact absurd hg (by simp)

/-- A new thread is before its first step, as one that is not there. -/
theorem of_append {β : Type} (f : Option Thread → β)
    (hf : ∀ role, f (some (Thread.new role)) = f none) (threads : List Thread) (role : Role)
    (i : ℕ) : f (threads ++ [Thread.new role])[i]? = f threads[i]? := by
  rcases Nat.lt_or_ge i threads.length with hlt | hge
  · rw [List.getElem?_append_left hlt]
  · rw [List.getElem?_append_right hge, List.getElem?_eq_none hge]
    rcases i - threads.length with _ | k
    · exact hf role
    · rfl

/-- `main` leaves the loops alone. -/
theorem pipelineOf_eq {c c' : Core N M}
    (hthreads : c'.threads = c.threads ∨ ∃ role, c'.threads = c.threads ++ [Thread.new role]) :
    pipelineOf c' = { pipelineOf c with shared := c'.shared } := by
  rcases hthreads with hthreads | ⟨role, hthreads⟩
  · unfold pipelineOf
    rw [hthreads]
  · unfold pipelineOf
    rw [hthreads, of_append receiveOf (by intro r; cases r <;> rfl),
      of_append strategyOf (by intro r; cases r <;> rfl),
      of_append executionOf (by intro r; cases r <;> rfl)]

/-- What `main` does before it sets `m_client_running` it does not do again. -/
theorem Sound.early {n m : ℕ} {flag : Bool} (ho : Sound h s n m flag)
    (hc : s.core.control = .initClient ∨ s.core.control = .workInit ∨
      s.core.control = .setRunning) : h.any setsRunning = false := by
  have hleft : 20 ≤ s.left := by
    have hstands := ho.stands
    unfold left
    generalize s.pc = pc at hstands ⊢
    generalize s.core.control = control at hstands hc ⊢
    cases hstands <;> simp [leftAt, leftIn] at hc ⊢
  have hnone := List.countP_eq_zero.mp (ho.begun.2 hleft)
  exact List.any_eq_false.mpr hnone

/-- **A statement of `main`**, once `m_client_running` has been set, stops the pipeline or does
nothing to it. -/
theorem Matched.main {n m : ℕ} {flag ok : Bool} (hm : Matched decode h s.core)
    (ho : Sound h s n m flag) (hsane : Sane s.core) (hbegun : h.any setsRunning = true)
    (hl : l ≠ .feedDestroyed) (hn : next decode (.go ok) s = some (l, s')) :
    Matched decode (l :: h) s'.core ∧ Sane s'.core := by
  have hlate : ¬ (s.core.control = .initClient ∨ s.core.control = .workInit ∨
      s.core.control = .setRunning) := fun hc => absurd (ho.early hc) (by simp [hbegun])
  rcases main_cases hn with ⟨call, pc, -, -, rfl, rfl⟩ | ⟨-, c', hg, rfl⟩
  · exact ⟨hm.stutter rfl (Or.inl rfl), hsane⟩
  · have hgo := Core.goStep_of_go hg
    have hthreads : c'.threads = s.core.threads ∨
        ∃ role, c'.threads = s.core.threads ++ [Thread.new role] := by
      cases hgo with
      | begins hc => exact absurd (Or.inr (Or.inr hc)) hlate
      | started role => exact Or.inr ⟨role, rfl⟩
      | assigned => exact Or.inl rfl
      | other hthreads => exact Or.inl hthreads
    have hlabel : pipelineStep l = none := by
      have hstep := hgo.stepOf
      cases l with
      | worker t role act => exact absurd (hstep t) (by simp [Core.stepOf])
      | _ => rfl
    obtain ⟨hfeed, hall⟩ := hsane
    have hall' : ∀ x ∈ c'.threads, x ≠ .network .noFeed ∧ x ≠ .network .exited := by
      rcases hthreads with hthreads | ⟨role, hthreads⟩
      · rw [hthreads]
        exact hall
      · intro x hx
        rw [hthreads] at hx
        rcases List.mem_append.mp hx with hx | hx
        · exact hall x hx
        · rw [List.mem_singleton.mp hx]
          cases role <;> simp [Thread.new]
    have hsame := pipelineOf_eq hthreads
    rcases go_shared hg hl with ⟨hmarket, -, hshared | hshared⟩ | ⟨hc | hc, -⟩ | hc
    · exact ⟨hm.stutter (by rw [hsame, hshared]; rfl) (Or.inl hlabel), hmarket.trans hfeed, hall'⟩
    · exact ⟨hm.stop (by rw [hsame, hshared]) hlabel, hmarket.trans hfeed, hall'⟩
    · exact absurd (Or.inl hc) hlate
    · exact absurd (Or.inr (Or.inl hc)) hlate
    · exact absurd (Or.inr (Or.inr hc)) hlate

/-! ## Before the pipeline -/

/-- The loops have not touched what they share. -/
def Untouched (s : Shared N M) : Prop :=
  s.marketDataQueue = Fifo.empty ∧ s.signalQueue = Fifo.empty ∧ s.feed.ticksReceived = 0 ∧
    s.signalsGenerated = 0 ∧ s.ordersSent = 0

/-- The core before `m_client_running` is set. -/
structure Fresh (h : List Core.Label) (c : Core N M) : Prop where
  silent : ∀ l ∈ h, pipelineStep l = none
  stage : Core.stage c.control = none
  threads : c.threads = []
  untouched : Untouched c.shared
  feed : c.clientStarted = true → c.marketFeed = true

theorem fresh_new (orderIdCounter : UInt64) : Fresh [] (Core.new orderIdCounter : Core N M) where
  silent _ hl := absurd hl List.not_mem_nil
  stage := rfl
  threads := rfl
  untouched := ⟨rfl, rfl, rfl, rfl, rfl⟩
  feed hstarted := absurd hstarted (by simp [Core.new])

theorem initializeClient_fresh {c : Core N M} (ok : Bool) (hu : Untouched c.shared)
    (hf : c.clientStarted = true → c.marketFeed = true) :
    Untouched (c.initializeClient ok).2.shared ∧ ((c.initializeClient ok).2.clientStarted = true →
      (c.initializeClient ok).2.marketFeed = true) := by
  unfold Core.initializeClient
  split
  · exact ⟨hu, hf⟩
  · cases ok with
    | true =>
      obtain ⟨hq, hsq, -, h2, h3⟩ := hu
      exact ⟨⟨hq, hsq, rfl, h2, h3⟩, fun _ => rfl⟩
    | false => exact ⟨hu, fun hstarted : false = true => absurd hstarted Bool.false_ne_true⟩

/-- The pipeline begins. -/
theorem Fresh.begins {c : Core N M} (hf : Fresh h c) (hfeed : c.marketFeed = true) :
    Sane c ∧ Matched decode (.begins c.threads.length :: h) { c with
      shared := { c.shared with clientRunning := true }, control := .clearStopping } := by
  have hthreads := hf.threads
  refine ⟨⟨hfeed, ?_⟩, [], .start ?_, fun α f _ => ?_⟩
  · exact fun x hx => absurd (hthreads ▸ hx : x ∈ []) List.not_mem_nil
  · simp only [pipelineOf, hthreads]
    exact ⟨rfl, rfl, rfl, hf.untouched⟩
  · have hsilent : ∀ l ∈ Core.Label.begins c.threads.length :: h, pipelineStep l = none :=
      List.forall_mem_cons.mpr ⟨rfl, hf.silent⟩
    have hnone : (Core.Label.begins c.threads.length :: h).filterMap
        (fun l => (pipelineStep l).bind f) = [] :=
      List.filterMap_eq_nil_iff.mpr fun l hl => by rw [hsilent l hl, Option.bind_none]
    exact (congrArg List.reverse hnone).symm

/-- **A statement of `main`** before `m_client_running` is set, or the one that sets it. -/
theorem Fresh.main {n m : ℕ} {flag ok : Bool} (hf : Fresh h s.core) (ho : Sound h s n m flag)
    (hl : l ≠ .feedDestroyed) (hn : next decode (.go ok) s = some (l, s')) :
    (setsRunning l = false ∧ Fresh (l :: h) s'.core) ∨
      (setsRunning l = true ∧ Sane s'.core ∧ Matched decode (l :: h) s'.core) := by
  rcases main_cases hn with ⟨call, pc, -, -, rfl, rfl⟩ | ⟨-, c', hg, rfl⟩
  · refine Or.inl ⟨rfl, ?_, Core.stage_entry call, hf.threads, hf.untouched, hf.feed⟩
    exact List.forall_mem_cons.mpr ⟨rfl, hf.silent⟩
  · have hgo := Core.goStep_of_go hg
    cases hgo with
    | begins hc =>
      have hstarted : s.core.clientStarted = true := by
        refine ho.started (Or.inr ?_)
        have hstands := ho.stands
        rw [hc] at hstands
        generalize s.pc = pc at hstands
        cases hstands
        rfl
      exact Or.inr ⟨rfl, hf.begins (hf.feed hstarted)⟩
    | started role hc => exact absurd hf.stage (by simp [hc, Core.stage])
    | assigned role t hc => exact absurd hf.stage (by simp [hc, Core.stage])
    | other hthreads _ _ hfollows =>
      obtain ⟨hbegins, -, hworker⟩ := hfollows.label
      have hlabel : setsRunning l = false := by
        cases l with
        | begins n => exact absurd rfl (hbegins n)
        | _ => rfl
      have hstep : pipelineStep l = none := by
        cases l with
        | worker t role act => exact absurd rfl (hworker t role act)
        | _ => rfl
      have hstage : Core.stage c'.control = none :=
        hfollows.stage.elim id fun hstage => hstage.trans hf.stage
      have hshared : Untouched c'.shared ∧ (c'.clientStarted = true → c'.marketFeed = true) := by
        rcases go_shared hg hl with ⟨hmarket, hstarted, hshared | hshared⟩ |
          ⟨-, hmarket, hshared, hstarted⟩ | hc
        · rw [hmarket, hstarted, hshared]
          exact ⟨hf.untouched, hf.feed⟩
        · rw [hmarket, hstarted, hshared]
          exact ⟨hf.untouched, hf.feed⟩
        · rw [hmarket, hstarted, hshared]
          exact initializeClient_fresh ok hf.untouched hf.feed
        · simp only [Core.go, hc, Option.some.injEq, Prod.mk.injEq] at hg
          exact absurd hg.1.symm (hbegins _)
      exact Or.inl ⟨hlabel, List.forall_mem_cons.mpr ⟨hstep, hf.silent⟩, hstage,
        hthreads.trans hf.threads, hshared.1, hshared.2⟩

/-! ## The simulation -/

/-- The program has not come to its pipeline, or it is at it. -/
def Follows (decode : Packet → MarketData) (h : List Core.Label) (c : Core N M) : Prop :=
  (h.any setsRunning = false ∧ Fresh h c) ∨
    (h.any setsRunning = true ∧ Sane c ∧ Matched decode h c)

/-- **A step of the program** in which no worker throws. -/
theorem follows_step {n m : ℕ} {flag : Bool} (ho : Sound h s n m flag)
    (hf : Follows decode h s.core) (hsmooth : smooth l = true)
    (hs : (client N M decode).step s l s') : Follows decode (l :: h) s'.core := by
  have hl : l ≠ .feedDestroyed := by
    rintro rfl
    exact absurd hsmooth (by decide)
  obtain ⟨move, hm⟩ := hs
  rcases hf with ⟨hnone, hfresh⟩ | ⟨hbegun, hsane, hmatched⟩
  · cases move with
    | worker t env => exact absurd hm (by simp [next, Core.next, hfresh.threads])
    | crash t => exact absurd hm (by simp [next, Core.next, hfresh.threads])
    | go ok =>
      rcases hfresh.main ho hl hm with ⟨hlabel, hfresh'⟩ | ⟨hlabel, hmatched'⟩
      · exact Or.inl ⟨by rw [List.any_cons, hlabel, hnone]; rfl, hfresh'⟩
      · exact Or.inr ⟨by rw [List.any_cons, hlabel]; rfl, hmatched'⟩
  · refine Or.inr ⟨by rw [List.any_cons, hbegun, Bool.or_true], ?_⟩
    cases move with
    | worker t env =>
      obtain ⟨⟨l, c'⟩, hn, hr⟩ := Option.map_eq_some_iff.mp hm
      obtain ⟨rfl, rfl⟩ := Prod.mk.inj hr
      exact (hmatched.worker ho hsane hn).symm
    | crash t =>
      obtain ⟨⟨l, c'⟩, hn, hr⟩ := Option.map_eq_some_iff.mp hm
      obtain ⟨rfl, rfl⟩ := Prod.mk.inj hr
      simp only [Core.next] at hn
      split at hn
      · split at hn
        · simp only [Option.some.injEq, Prod.mk.injEq] at hn
          exact absurd hsmooth (by simp [← hn.1, smooth])
        · exact absurd hn (by simp)
      · exact absurd hn (by simp)
    | go ok => exact (hmatched.main ho hsane hbegun hl hm).symm

theorem follows_run (hr : ((client N M decode).restrict Smooth).Run h s) :
    Follows decode h s.core := by
  refine LTS.Run.invariant (I := fun h s => Follows decode h s.core) ?_ ?_ hr
  · rintro _ ⟨n, rfl⟩
    exact Or.inl ⟨rfl, fresh_new n⟩
  · rintro h s l s' hr hf ⟨hsmooth, hs⟩
    obtain ⟨n, m, flag, ho⟩ := run_sound hr.of_restrict
    exact follows_step ho hf hsmooth hs

/-- **The client program runs the pipeline.** Every run of the program in which no worker throws is,
from the setting of `m_client_running` to the destruction of `p_market_feed`, one of the pipeline:
the shared objects are the same, each loop stands at the same place, and what is read from what the
loops do is read from both alike. -/
theorem simulates (hr : ((client N M decode).restrict Smooth).Run h s)
    (hb : h.any setsRunning = true) :
    ∃ hp, (Pipeline.pipeline N M decode).Run hp (pipelineOf s.core) ∧
      ∀ (α : Type) (f : Pipeline.Label → Option α), Visible f → LTS.seen f hp = read f h := by
  rcases follows_run hr with ⟨hnone, -⟩ | ⟨-, -, hm⟩
  · exact absurd hb (by simp [hnone])
  · exact hm

/-- A tick arrives while the other two workers are not there yet, and becomes an order. -/
def trading : List Move :=
  List.replicate 10 (.go true) ++ List.replicate 6 (.worker 0 Core.oneTick) ++
    List.replicate 4 (.go true) ++ List.replicate 4 (.worker 1 Core.oneTick) ++
    List.replicate 4 (.worker 2 Core.oneTick) ++ List.replicate 5 (.go true)

/-- The run, up to the return of `start_client`. -/
def traded : List Core.Label × Controller 4 4 :=
  (LTS.exec (LTS.guarded Smooth (next Core.anyTick)) trading ([], new 1)).getD ([], new 1)

theorem traded_run : ((client 4 4 Core.anyTick).restrict Smooth).Run traded.1 traded.2 := by
  have he : LTS.exec (LTS.guarded Smooth (next Core.anyTick)) trading ([], new 1) = some traded :=
    LTS.exec_getD (by decide +kernel)
  exact LTS.Run.exec_restrict (.start ⟨1, rfl⟩) he

theorem simulates_traded : traded.2.pc = .returned false ∧
    ∃ hp, (Pipeline.pipeline 4 4 Core.anyTick).Run hp (pipelineOf traded.2.core) ∧
      ∀ (α : Type) (f : Pipeline.Label → Option α), Visible f → LTS.seen f hp = read f traded.1 :=
  ⟨by decide +kernel, simulates traded_run (by decide +kernel)⟩

/-- **The orders of the program.** In every such run the ticks popped are the first of those
counted, and the orders made are the first of those that `ticksToOrders` makes of the ticks
popped. -/
theorem program_orders (hr : ((client N M decode).restrict Smooth).Run h s) :
    read Pipeline.ticksPopped h <+: read Pipeline.counted h ∧
      ∃ counter xs, xs.map Prod.fst = read Pipeline.ticksPopped h ∧
        read Pipeline.orders h <+: (Core.ticksToOrders counter xs).filterMap id := by
  rcases follows_run hr with ⟨-, hf⟩ | ⟨-, -, hp, hrun, hread⟩
  · have hnone : ∀ {α : Type} (f : Pipeline.Label → Option α), read f h = [] := by
      intro α f
      have hnil : h.filterMap (fun l => (pipelineStep l).bind f) = [] :=
        List.filterMap_eq_nil_iff.mpr fun l hl => by rw [hf.silent l hl, Option.bind_none]
      exact congrArg List.reverse hnil
    rw [hnone, hnone, hnone]
    exact ⟨List.prefix_rfl, 0, [], rfl, List.nil_prefix⟩
  · obtain ⟨hreceive, -, -, hcarries, -⟩ := Pipeline.run_conserved hrun
    have hpushed : LTS.seen Pipeline.ticksPushed hp = LTS.seen Pipeline.ticksPopped hp ++
        s.core.shared.marketDataQueue.items := hcarries
    obtain ⟨counter, xs, hxs, horders⟩ := Pipeline.orders_of_ticks hrun
    have hpopped := hread _ Pipeline.ticksPopped ⟨fun role => by cases role <;> rfl, rfl⟩
    have hcounted := hread _ Pipeline.counted ⟨fun role => by cases role <;> rfl, rfl⟩
    have hmade := hread _ Pipeline.orders ⟨fun role => by cases role <;> rfl, rfl⟩
    rw [← hpopped, ← hcounted, ← hmade]
    refine ⟨?_, counter, xs, hxs, horders⟩
    rw [hreceive.ticks, hpushed, List.append_assoc, List.append_assoc]
    exact List.prefix_append _ _

theorem program_orders_traded : (read Pipeline.orders traded.1).length = 1 ∧
    read Pipeline.ticksPopped traded.1 <+: read Pipeline.counted traded.1 :=
  ⟨by decide +kernel, (program_orders traded_run).1⟩

end Controller

end Mms
