import Mms.App.Core

/-!
# What the steps of a `Core` do, and the end of its feed

* `step_cases`: a step is one of a worker, the beginning of a call, or a statement of the
  controlling thread, and what each of them can change. Everything below, and every law of
  `Mms.App.Restart`, is derived from it.
* `reachable_wf`: the members own threads of their own role, and `work_client` gets past its test
  only while `m_client_running` is clear.
* `feed_outlives_loop_iff`: `p_market_feed` is declared after the threads, so it is destroyed before
  they are joined. No worker accesses it afterwards, in any schedule, iff the network threads were
  done with it by then. `receive_loop_outlives_feed` is a schedule in which one was not.
-/

namespace Mms

open Lib

namespace Thread

/-- The next step of the thread reads `p_market_feed`, or is one of `receive_loop`. -/
def usesFeed : Thread → Bool
  | .network .enter => true
  | .network (.loop pc) => pc ≠ .exited
  | _ => false

theorem live_of_usesFeed {t : Thread} (hu : t.usesFeed = true) : t.live = true := by
  cases t with
  | network pc =>
    cases pc with
    | enter => rfl
    | loop pc => cases pc <;> first | rfl | exact absurd hu (by decide)
    | noFeed => rfl
    | exited => exact absurd hu (by decide)
  | strategy _ | execution _ => exact absurd hu (by simp [usesFeed])

@[simp] theorem usesFeed_exit (t : Thread) : t.exit.usesFeed = false := by cases t <;> rfl

/-- A thread that is done with the feed stays so. -/
theorem usesFeed_next {N M : ℕ} (decode : Packet → MarketData) (env : Answers) (marketFeed : Bool)
    {t : Thread} (s : Shared N M) (hu : t.usesFeed = false) :
    (t.next decode env marketFeed s).2.1.usesFeed = false := by
  cases t with
  | network pc =>
    cases pc with
    | enter => exact absurd hu (by decide)
    | noFeed | exited => rfl
    | loop pc =>
      have hpc : pc = .exited := by simpa [usesFeed] using hu
      rw [hpc]
      rfl
  | strategy _ | execution _ => rfl

end Thread

namespace Core

variable {N M : ℕ} {decode : Packet → MarketData} {c c' c0 : Core N M} {l : Label} {h : List Label}

/-! ## What a step does -/

/-- The worker `t` steps or throws. -/
structure WorkerStep (c : Core N M) (t : ℕ) (l : Label) (c' : Core N M) : Prop where
  thread : ∃ thread thread', c.threads[t]? = some thread ∧ thread.live = true ∧
    c'.threads = c.threads.set t thread' ∧ thread'.role = thread.role ∧
    (thread.usesFeed = false → thread'.usesFeed = false) ∧
    ((∃ act, l = .worker t thread.role act) ∨ l = .crash t thread.role)
  control : c'.control = c.control
  jthread : c'.jthread = c.jthread
  running : c'.shared.clientRunning = true → c.shared.clientRunning = true

/-- The statements of the controlling thread that neither start a thread nor set
`m_client_running`: their label, and where they lead. -/
inductive Follows (c : Core N M) : Label → Control → Prop
  | initialized (e : Option CoreError) (hc : c.control = .initClient) :
      Follows c (.returned .initializeClient e) .idle
  | running (hc : c.control = .workTest) (hr : c.shared.clientRunning = true) :
      Follows c (.returned .workClient none) .idle
  | tested (hc : c.control = .workTest) (hr : c.shared.clientRunning = false) :
      Follows c .tau .workInit
  | refused (e : CoreError) (hc : c.control = .workInit) :
      Follows c (.returned .workClient (some e)) .idle
  | connected (hc : c.control = .workInit) : Follows c .tau .setRunning
  | stopping (hc : c.control = .clearStopping) : Follows c .tau .clearStopped
  | stopped (hc : c.control = .clearStopped) : Follows c .tau (.create .network)
  | threw (role : Role) (hc : c.control = .create role) : Follows c (.threw role) .idle
  | stop (dtor : Bool) (k : Control)
      (hc : c.control = .stopTest dtor ∨ c.control = .setStopping dtor ∨
        c.control = .clearRunning dtor)
      (hk : k = .setStopping dtor ∨ k = .clearRunning dtor ∨ k = .setStopped dtor) :
      Follows c .tau k
  | afterStop (dtor : Bool) (hc : c.control = .stopTest dtor ∨ c.control = .setStopped dtor) :
      Follows c (afterStop dtor).1 (afterStop dtor).2
  | feed (hc : c.control = .destroyFeed) : Follows c .feedDestroyed (.destroyThread .execution)
  | joined (role : Role) (hc : c.control = .destroyThread role) (hj : c.joined role = true) :
      Follows c .tau (afterJoin role)

/-- What a statement of the controlling thread does. -/
inductive GoStep (c : Core N M) : Label → Core N M → Prop
  | begins (hc : c.control = .setRunning) : GoStep c (.begins c.threads.length)
      { c with shared := { c.shared with clientRunning := true }, control := .clearStopping }
  | started (role : Role) (hc : c.control = .create role) :
      GoStep c (.started c.threads.length role)
        { c with
          threads := c.threads ++ [Thread.new role], control := .assign role c.threads.length }
  | assigned (role : Role) (t : ℕ) (hc : c.control = .assign role t) (hj : c.joined role = true) :
      GoStep c (afterStart role).1
        { c with
          jthread := Function.update c.jthread role (some t), control := (afterStart role).2 }
  | other {l : Label} {c' : Core N M} (hthreads : c'.threads = c.threads)
      (hjthread : c'.jthread = c.jthread)
      (hrunning : c'.shared.clientRunning = true → c.shared.clientRunning = true)
      (hcontrol : Follows c l c'.control) : GoStep c l c'

theorem initializeClient_frame (connected : Bool) (c : Core N M) :
    (c.initializeClient connected).2.threads = c.threads ∧
      (c.initializeClient connected).2.jthread = c.jthread ∧
      (c.initializeClient connected).2.shared.clientRunning = c.shared.clientRunning := by
  unfold initializeClient
  split
  · exact ⟨rfl, rfl, rfl⟩
  · simp only
    split <;> exact ⟨rfl, rfl, rfl⟩

/-- **The statements of the controlling thread.** -/
theorem goStep_of_go {ok : Bool} (hg : c.go ok = some (l, c')) : GoStep c l c' := by
  obtain ⟨hthreads, hjthread, hrunning⟩ := initializeClient_frame ok c
  unfold go at hg
  cases hc : c.control with
  | idle => simp [hc] at hg
  | destroyed => simp [hc] at hg
  | initClient =>
    simp only [hc, Option.some.injEq, Prod.mk.injEq] at hg
    obtain ⟨rfl, rfl⟩ := hg
    exact .other hthreads hjthread (fun hr => hrunning ▸ hr) (.initialized _ hc)
  | workTest =>
    simp only [hc] at hg
    cases hr : c.shared.clientRunning with
    | true =>
      simp only [hr, if_true, Option.some.injEq, Prod.mk.injEq] at hg
      obtain ⟨rfl, rfl⟩ := hg
      exact .other rfl rfl id (.running hc hr)
    | false =>
      simp only [hr, Bool.false_eq_true, if_false, Option.some.injEq, Prod.mk.injEq] at hg
      obtain ⟨rfl, rfl⟩ := hg
      exact .other rfl rfl id (.tested hc hr)
  | workInit =>
    simp only [hc] at hg
    split at hg
    · rename_i e _
      simp only [Option.some.injEq, Prod.mk.injEq] at hg
      obtain ⟨rfl, rfl⟩ := hg
      exact .other hthreads hjthread (fun hr => hrunning ▸ hr) (.refused e hc)
    · simp only [Option.some.injEq, Prod.mk.injEq] at hg
      obtain ⟨rfl, rfl⟩ := hg
      exact .other hthreads hjthread (fun hr => hrunning ▸ hr) (.connected hc)
  | setRunning =>
    simp only [hc, Option.some.injEq, Prod.mk.injEq] at hg
    obtain ⟨rfl, rfl⟩ := hg
    exact .begins hc
  | clearStopping =>
    simp only [hc, Option.some.injEq, Prod.mk.injEq] at hg
    obtain ⟨rfl, rfl⟩ := hg
    exact .other rfl rfl id (.stopping hc)
  | clearStopped =>
    simp only [hc, Option.some.injEq, Prod.mk.injEq] at hg
    obtain ⟨rfl, rfl⟩ := hg
    exact .other rfl rfl id (.stopped hc)
  | create role =>
    simp only [hc] at hg
    split at hg
    · simp only [Option.some.injEq, Prod.mk.injEq] at hg
      obtain ⟨rfl, rfl⟩ := hg
      exact .started role hc
    · simp only [Option.some.injEq, Prod.mk.injEq] at hg
      obtain ⟨rfl, rfl⟩ := hg
      exact .other rfl rfl id (.threw role hc)
  | assign role t =>
    simp only [hc] at hg
    split at hg
    · rename_i hj
      simp only [Option.some.injEq, Prod.mk.injEq] at hg
      obtain ⟨rfl, rfl⟩ := hg
      exact .assigned role t hc hj
    · exact absurd hg (by simp)
  | stopTest dtor =>
    simp only [hc] at hg
    split at hg
    · simp only [Option.some.injEq, Prod.mk.injEq] at hg
      obtain ⟨rfl, rfl⟩ := hg
      exact .other rfl rfl id (.afterStop dtor (Or.inl hc))
    · simp only [Option.some.injEq, Prod.mk.injEq] at hg
      obtain ⟨rfl, rfl⟩ := hg
      exact .other rfl rfl id (.stop dtor _ (Or.inl hc) (Or.inl rfl))
  | setStopping dtor =>
    simp only [hc, Option.some.injEq, Prod.mk.injEq] at hg
    obtain ⟨rfl, rfl⟩ := hg
    exact .other rfl rfl id (.stop dtor _ (Or.inr (Or.inl hc)) (Or.inr (Or.inl rfl)))
  | clearRunning dtor =>
    simp only [hc, Option.some.injEq, Prod.mk.injEq] at hg
    obtain ⟨rfl, rfl⟩ := hg
    exact .other rfl rfl (fun hr => absurd hr (by simp))
      (.stop dtor _ (Or.inr (Or.inr hc)) (Or.inr (Or.inr rfl)))
  | setStopped dtor =>
    simp only [hc, Option.some.injEq, Prod.mk.injEq] at hg
    obtain ⟨rfl, rfl⟩ := hg
    exact .other rfl rfl id (.afterStop dtor (Or.inr hc))
  | destroyFeed =>
    simp only [hc, Option.some.injEq, Prod.mk.injEq] at hg
    obtain ⟨rfl, rfl⟩ := hg
    exact .other rfl rfl id (.feed hc)
  | destroyThread role =>
    simp only [hc] at hg
    split at hg
    · rename_i hj
      simp only [Option.some.injEq, Prod.mk.injEq] at hg
      obtain ⟨rfl, rfl⟩ := hg
      exact .other rfl rfl id (.joined role hc hj)
    · exact absurd hg (by simp)

/-- **A step is one of a worker, the beginning of a call, or a statement of the controlling
thread.** -/
theorem step_cases (hs : (core N M decode).step c l c') :
    (∃ t, WorkerStep c t l c') ∨
    (∃ call, c.control = .idle ∧ l = .call call ∧ c' = { c with control := call.entry }) ∨
    GoStep c l c' := by
  obtain ⟨m, hm⟩ := hs
  cases m with
  | worker t env =>
    simp only [next] at hm
    split at hm
    · rename_i thread hth
      split at hm
      · rename_i hlive
        simp only [Option.some.injEq, Prod.mk.injEq] at hm
        obtain ⟨rfl, rfl⟩ := hm
        exact Or.inl ⟨t, ⟨thread, _, hth, hlive, rfl, Thread.role_next ..,
          Thread.usesFeed_next decode env c.marketFeed c.shared, Or.inl ⟨_, rfl⟩⟩, rfl, rfl,
          Thread.running_next decode env c.marketFeed thread c.shared⟩
      · exact absurd hm (by simp)
    · exact absurd hm (by simp)
  | crash t =>
    simp only [next] at hm
    split at hm
    · rename_i thread hth
      split at hm
      · rename_i hlive
        simp only [Option.some.injEq, Prod.mk.injEq] at hm
        obtain ⟨rfl, rfl⟩ := hm
        exact Or.inl ⟨t, ⟨thread, _, hth, hlive, rfl, thread.role_exit,
          fun _ => thread.usesFeed_exit, Or.inr rfl⟩, rfl, rfl, fun hr => absurd hr (by simp)⟩
      · exact absurd hm (by simp)
    · exact absurd hm (by simp)
  | call call =>
    simp only [next] at hm
    split at hm
    · rename_i hidle
      simp only [Option.some.injEq, Prod.mk.injEq] at hm
      obtain ⟨rfl, rfl⟩ := hm
      exact Or.inr (Or.inl ⟨call, hidle, rfl, rfl⟩)
    · exact absurd hm (by simp)
  | go ok => exact Or.inr (Or.inr (goStep_of_go hm))

/-! ## What every reachable core keeps -/

/-- The roles of the workers, in the order of their start. -/
def roles (c : Core N M) : List Role := c.threads.map Thread.role

theorem WorkerStep.label {t : ℕ} (hw : WorkerStep c t l c') :
    (∃ role act, l = .worker t role act) ∨ ∃ role, l = .crash t role := by
  obtain ⟨thread, -, -, -, -, -, -, hl⟩ := hw.thread
  rcases hl with ⟨act, hl⟩ | hl
  · exact Or.inl ⟨thread.role, act, hl⟩
  · exact Or.inr ⟨thread.role, hl⟩

theorem length_roles (c : Core N M) : c.roles.length = c.threads.length := List.length_map _

theorem WorkerStep.roles_eq {t : ℕ} (hw : WorkerStep c t l c') : c'.roles = c.roles := by
  obtain ⟨thread, thread', hth, -, hset, hrole, -, -⟩ := hw.thread
  obtain ⟨ht, rfl⟩ := List.getElem?_eq_some_iff.mp hth
  unfold roles
  rw [hset, List.map_set, hrole, ← List.getElem_map Thread.role (h := by simpa using ht),
    List.set_getElem_self]

/-- Workers are never forgotten. -/
theorem roles_grow (hs : (core N M decode).step c l c') : c.roles <+: c'.roles := by
  rcases step_cases hs with ⟨t, hw⟩ | ⟨call, -, -, rfl⟩ | hg
  · exact hw.roles_eq ▸ List.prefix_rfl
  · exact List.prefix_rfl
  · unfold roles
    cases hg with
    | begins | assigned => exact List.prefix_rfl
    | started =>
      rw [List.map_append]
      exact List.prefix_append _ _
    | other hthreads =>
      have hroles : c'.threads.map Thread.role = c.threads.map Thread.role := by rw [hthreads]
      exact hroles ▸ List.prefix_rfl

theorem roles_mono (hs : (core N M decode).step c l c') {t : ℕ} {role : Role}
    (ht : c.roles[t]? = some role) : c'.roles[t]? = some role := by
  obtain ⟨hlt, rfl⟩ := List.getElem?_eq_some_iff.mp ht
  exact List.prefix_iff_getElem?.mp (roles_grow hs) t hlt

/-- What every reachable core keeps: a member owns a thread of its own role, and `work_client`
gets as far as setting `m_client_running` only while it is clear. -/
structure Wf (c : Core N M) : Prop where
  owned : ∀ role t, c.jthread role = some t → c.roles[t]? = some role
  assigning : ∀ role t, c.control = .assign role t → c.roles[t]? = some role
  halted : c.control = .workInit ∨ c.control = .setRunning → c.shared.clientRunning = false

theorem wf_new (orderIdCounter : UInt64) : (new orderIdCounter : Core N M).Wf where
  owned _ _ h := absurd h (by simp [new])
  assigning _ _ h := absurd h (by simp [new])
  halted h := absurd h (by simp [new])

/-- Where the statements of `Follows` never lead. -/
theorem Follows.ne_assign {k : Control} (hf : Follows c l k) (role : Role) (t : ℕ) :
    k ≠ .assign role t := by
  cases hf with
  | stop dtor k hc hk => rcases hk with rfl | rfl | rfl <;> simp
  | afterStop dtor => cases dtor <;> simp [Core.afterStop]
  | joined role' => cases role' <;> simp [afterJoin]
  | _ => simp

/-- Only a call leads to its first statement. -/
theorem Follows.ne_workTest {k : Control} (hf : Follows c l k) : k ≠ .workTest := by
  cases hf with
  | stop dtor k hc hk => rcases hk with rfl | rfl | rfl <;> simp
  | afterStop dtor => cases dtor <;> simp [Core.afterStop]
  | joined role => cases role <;> simp [afterJoin]
  | _ => simp

/-- `work_client` sets `m_client_running` after it has found it clear. -/
theorem Follows.halted {k : Control} (hf : Follows c l k) (hk : k = .workInit ∨ k = .setRunning) :
    (c.control = .workTest ∧ c.shared.clientRunning = false) ∨ c.control = .workInit := by
  cases hf with
  | tested hc hr => exact Or.inl ⟨hc, hr⟩
  | connected hc => exact Or.inr hc
  | stop dtor k hc hk' => rcases hk' with rfl | rfl | rfl <;> simp at hk
  | afterStop dtor => cases dtor <;> simp [Core.afterStop] at hk
  | joined role' => cases role' <;> simp [afterJoin] at hk
  | _ => simp at hk

theorem wf_step (hw : c.Wf) (hs : (core N M decode).step c l c') : c'.Wf := by
  have hmono {t : ℕ} {r : Role} (ht : c.roles[t]? = some r) := roles_mono hs ht
  rcases step_cases hs with ⟨t, hstep⟩ | ⟨call, -, -, rfl⟩ | hg
  · refine ⟨fun role t ht => ?_, fun role t ht => ?_, fun hc => ?_⟩
    · exact hmono (hw.owned role t (hstep.jthread ▸ ht))
    · exact hmono (hw.assigning role t (hstep.control ▸ ht))
    · have hclear := hw.halted (hstep.control ▸ hc)
      exact Bool.eq_false_iff.mpr fun hr => absurd (hstep.running hr) (by simp [hclear])
  · refine ⟨hw.owned, fun role t ht => ?_, fun hc => ?_⟩
    · cases call <;> exact absurd ht (by simp [Call.entry])
    · cases call <;> exact absurd hc (by simp [Call.entry])
  · cases hg with
    | begins hc =>
      exact ⟨hw.owned, fun _ _ ht => absurd ht (by simp), fun hc => absurd hc (by simp)⟩
    | started role hc =>
      refine ⟨fun role t ht => hmono (hw.owned role t ht), fun role' t ht => ?_,
        fun hc => absurd hc (by simp)⟩
      simp only [Control.assign.injEq] at ht
      obtain ⟨rfl, rfl⟩ := ht
      simp [roles]
    | assigned role t hc hj =>
      refine ⟨fun role' t' ht => ?_, fun role' t' ht => ?_, fun hc => ?_⟩
      · change Function.update c.jthread role (some t) role' = some t' at ht
        by_cases hr : role' = role
        · subst hr
          rw [Function.update_self, Option.some.injEq] at ht
          exact ht ▸ hw.assigning role' t hc
        · rw [Function.update_of_ne hr] at ht
          exact hw.owned role' t' ht
      · cases role <;> exact absurd ht (by simp [afterStart])
      · cases role <;> exact absurd hc (by simp [afterStart])
    | other hthreads hjthread hrunning hf =>
      refine ⟨fun role t ht => hmono (hw.owned role t (hjthread ▸ ht)),
        fun role t ht => absurd ht (hf.ne_assign role t), fun hc => ?_⟩
      have hclear : c.shared.clientRunning = false := by
        rcases hf.halted hc with ⟨-, hr⟩ | hc
        · exact hr
        · exact hw.halted (Or.inl hc)
      exact Bool.eq_false_iff.mpr fun hr => absurd (hrunning hr) (by simp [hclear])

/-- **Every reachable core is well formed.** -/
theorem reachable_wf (hr : (core N M decode).Reachable c) : c.Wf :=
  hr.invariant (fun _ ⟨n, hn⟩ => hn ▸ wf_new n) fun _ _ _ => wf_step

/-! ## Destroying the feed -/

/-- The step `l` from `c` is one of a worker in `receive_loop`, or reads `p_market_feed`. -/
def AccessesFeed (c : Core N M) (l : Label) : Prop :=
  ∃ t thread, c.threads[t]? = some thread ∧ thread.usesFeed = true ∧
    ((∃ act, l = .worker t thread.role act) ∨ l = .crash t thread.role)

/-- The destructor is past `p_market_feed`. -/
def Destroying (c : Core N M) : Prop :=
  (∃ role, c.control = .destroyThread role) ∨ c.control = .destroyed

/-- Once the destructor has got past `p_market_feed` it starts no thread and calls nothing. -/
theorem threads_of_destroying (hc : c.Destroying) (hs : (core N M decode).step c l c') :
    c'.Destroying ∧ ((∃ t, WorkerStep c t l c') ∨ c'.threads = c.threads) := by
  rcases step_cases hs with ⟨t, hw⟩ | ⟨call, hidle, -, -⟩ | hg
  · unfold Destroying
    rw [hw.control]
    exact ⟨hc, Or.inl ⟨t, hw⟩⟩
  · rcases hc with ⟨role, hc⟩ | hc <;> exact absurd (hidle.symm.trans hc) (by simp)
  · cases hg with
    | begins hc' | started role hc' | assigned role t hc' =>
      rcases hc with ⟨role, hc⟩ | hc <;> exact absurd (hc'.symm.trans hc) (by simp)
    | other hthreads hjthread hrunning hf =>
      refine ⟨?_, Or.inr hthreads⟩
      rcases hc with ⟨role, hc⟩ | hc
      · unfold Destroying
        generalize c'.control = k at hf ⊢
        cases hf with
        | joined role' => cases role' <;> simp [afterJoin]
        | stop dtor k hc' hk =>
          rcases hc' with h | h | h <;> exact absurd (hc.symm.trans h) (by simp)
        | afterStop dtor hc' => rcases hc' with h | h <;> exact absurd (hc.symm.trans h) (by simp)
        | feed hc' => exact Or.inl ⟨_, rfl⟩
        | _ hc' => exact absurd (hc.symm.trans ‹c.control = _›) (by simp)
      · generalize c'.control = k at hf
        cases hf with
        | stop dtor k hc' hk =>
          rcases hc' with h | h | h <;> exact absurd (hc.symm.trans h) (by simp)
        | afterStop dtor hc' => rcases hc' with h | h <;> exact absurd (hc.symm.trans h) (by simp)
        | _ => exact absurd (hc.symm.trans ‹c.control = _›) (by simp)

theorem destroying_of_feedDestroyed (hs : (core N M decode).step c .feedDestroyed c') :
    c'.Destroying ∧ c'.threads = c.threads := by
  generalize hl : Label.feedDestroyed = l at hs
  rcases step_cases hs with ⟨t, hw⟩ | ⟨call, -, hcall, -⟩ | hg
  · rcases hw.label with ⟨_, _, hworker⟩ | ⟨_, hworker⟩
    · exact absurd (hl.trans hworker) (by simp)
    · exact absurd (hl.trans hworker) (by simp)
  · exact absurd (hl.trans hcall) (by simp)
  · cases hg with
    | begins | started => exact absurd hl (by simp)
    | assigned role => cases role <;> exact absurd hl (by simp [afterStart])
    | other hthreads hjthread hrunning hf =>
      refine ⟨?_, hthreads⟩
      unfold Destroying
      generalize c'.control = k at hf ⊢
      cases hf with
      | feed => exact Or.inl ⟨_, rfl⟩
      | afterStop dtor => cases dtor <;> exact absurd hl (by simp [afterStop])
      | _ => exact absurd hl (by simp)

/-- Where no thread is started, none comes to use the feed. -/
theorem done_of_threads (hdone : ∀ thread ∈ c.threads, thread.usesFeed = false)
    (hthreads : (∃ t, WorkerStep c t l c') ∨ c'.threads = c.threads) :
    ∀ thread ∈ c'.threads, thread.usesFeed = false := by
  intro thread hmem
  rcases hthreads with ⟨t, hw⟩ | hthreads
  · obtain ⟨old, new, hold, -, hset, -, huses, -⟩ := hw.thread
    rw [hset] at hmem
    rcases List.mem_or_eq_of_mem_set hmem with hmem | rfl
    · exact hdone thread hmem
    · exact huses (hdone old (List.mem_of_getElem? hold))
  · exact hdone thread (hthreads ▸ hmem)

/-- No thread is started and none comes back to the feed after the feed's destruction. -/
theorem done_of_destroying {c1 : Core N M} (hd : c1.Destroying)
    (hdone : ∀ thread ∈ c1.threads, thread.usesFeed = false)
    (hr : ((core N M decode).since c1).Reachable c) :
    c.Destroying ∧ ∀ thread ∈ c.threads, thread.usesFeed = false := by
  refine hr.invariant (I := fun c => c.Destroying ∧ ∀ thread ∈ c.threads, thread.usesFeed = false)
    (fun c h0 => ?_) fun c l c' hi hs => ?_
  · rw [show c = c1 from h0]
    exact ⟨hd, hdone⟩
  · obtain ⟨hd, hdone⟩ := hi
    obtain ⟨hd', hthreads⟩ := threads_of_destroying hd hs
    exact ⟨hd', done_of_threads hdone hthreads⟩

/-- A thread that uses the feed can step, whatever the environment answers. -/
theorem exists_access (env : Answers) {thread : Thread} (hmem : thread ∈ c.threads)
    (huses : thread.usesFeed = true) :
    ∃ l c', (core N M decode).step c l c' ∧ AccessesFeed c l := by
  obtain ⟨t, ht⟩ := List.mem_iff_getElem?.mp hmem
  rcases hn : thread.next decode env c.marketFeed c.shared with ⟨act, thread', shared⟩
  refine ⟨.worker t thread.role act,
    { c with threads := c.threads.set t thread', shared := shared }, ⟨.worker t env, ?_⟩, t, thread,
    ht, huses, Or.inl ⟨act, rfl⟩⟩
  simp only [next, ht, Thread.live_of_usesFeed huses, if_true, hn]

/-- **The destructor and the network thread.** After the destructor of `p_market_feed` no worker
accesses it, whatever the schedule, if and only if the network threads were done with it by then. -/
theorem feed_outlives_loop_iff {c1 : Core N M}
    (hs : (core N M decode).step c .feedDestroyed c1) :
    (∀ c2 l c3, ((core N M decode).since c1).Reachable c2 → (core N M decode).step c2 l c3 →
        ¬ AccessesFeed c2 l) ↔
      ∀ thread ∈ c.threads, thread.usesFeed = false := by
  have hc1 := destroying_of_feedDestroyed hs
  constructor
  · intro hsafe thread hmem
    by_contra huses
    let env : Answers := ⟨none, false, ⟨.replicate 8 0, .hold, 0, 0, 0⟩, 0⟩
    obtain ⟨l, c3, hstep, haccess⟩ := exists_access env (hc1.2 ▸ hmem) (by simpa using huses)
    exact hsafe c1 l c3 (.start rfl) hstep haccess
  · rintro hdone c2 l c3 hr - ⟨t, thread, ht, huses, -⟩
    have hdone2 := (done_of_destroying hc1.1 (hc1.2 ▸ hdone) hr).2
    exact absurd (hdone2 thread (List.mem_of_getElem? ht)) (by simp [huses])

/-- A network thread that leaves `receive_loop` before the feed is destroyed. -/
theorem feed_outlives_loop_iff_exited :
    let decode : Packet → MarketData := fun b => ⟨b[0].toUInt64, 0, 0, 0, .replicate 8 0⟩
    let env : Answers := ⟨some [], true, ⟨.replicate 8 0, .hold, 0, 0, 0⟩, 0⟩
    let moves := [.call .workClient] ++ List.replicate 11 (.go true) ++
      List.replicate 3 (.worker 0 env) ++ [.call .destructor] ++ List.replicate 4 (.go true) ++
      List.replicate 2 (.worker 0 env)
    let c := ((LTS.exec (next decode) moves ([], (new 1 : Core 4096 2048))).getD ([], new 1)).2
    ∃ c1, (core 4096 2048 decode).step c .feedDestroyed c1 ∧
      ∀ c2 l c3, ((core 4096 2048 decode).since c1).Reachable c2 →
        (core 4096 2048 decode).step c2 l c3 → ¬ AccessesFeed c2 l := by
  intro decode env moves c
  have hs : (core 4096 2048 decode).step c .feedDestroyed _ := ⟨.go true, rfl⟩
  exact ⟨_, hs, (feed_outlives_loop_iff hs).mpr (by decide +kernel)⟩

/-- **A destructor that does not wait.** `work_client` succeeds and the network thread blocks in
`recv`; the destructor stops the client and destroys `p_market_feed`; then `recv` returns. -/
theorem receive_loop_outlives_feed :
    let decode : Packet → MarketData := fun b => ⟨b[0].toUInt64, 0, 0, 0, .replicate 8 0⟩
    let env : Answers := ⟨some [], true, ⟨.replicate 8 0, .hold, 0, 0, 0⟩, 0⟩
    let moves := [.call .workClient] ++ List.replicate 11 (.go true) ++
      List.replicate 3 (.worker 0 env) ++ [.call .destructor] ++ List.replicate 4 (.go true)
    ∃ h c0 c1 c2, LTS.exec (next decode) moves ([], (new 1 : Core 4096 2048)) = some (h, c0) ∧
      (core 4096 2048 decode).Run h c0 ∧ .returned .workClient none ∈ h ∧
      (core 4096 2048 decode).step c0 .feedDestroyed c1 ∧
      (core 4096 2048 decode).step c1 (.worker 0 .network (.recv (some []))) c2 ∧
      AccessesFeed c1 (.worker 0 .network (.recv (some []))) := by
  intro decode env moves
  let r := (LTS.exec (next decode) moves ([], (new 1 : Core 4096 2048))).getD ([], new 1)
  have he : LTS.exec (next decode) moves ([], (new 1 : Core 4096 2048)) = some r :=
    LTS.exec_getD (by decide +kernel)
  exact ⟨r.1, r.2, _, _, he, LTS.Run.exec (.start ⟨1, rfl⟩) he, by decide +kernel,
    ⟨.go true, rfl⟩, ⟨.worker 0 env, rfl⟩, 0, .network (.loop .recv), rfl, rfl, Or.inl ⟨_, rfl⟩⟩

end Core

end Mms
