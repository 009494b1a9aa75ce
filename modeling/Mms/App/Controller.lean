import Mms.App.Shutdown

/-!
# The client program (`src/mms/app/Controller.cc`, `src/mms/client/main.cc`)

`main` makes a `Controller`, which owns a `Core`; it calls `start_client` once, and returns what
that returned when it has destroyed the controller. `start_client` calls `initialize_client` and
`work_client`, sleeps, and calls `stop_client`; `true` is its failure. The workers step in between,
also while it sleeps.

* `step_cases`, `main_cases`: a step is one of a worker, a call of the core, or a statement of it.
* `client_core`: a run of the program is a run of its core, one among all those of `Mms.App.Core`.

The reading of the configuration before is left out, and so are the logging and the timers;
`sleep_for` may take any time. An exception of a `std::jthread` is a `std::exception`. One of
`initialize_client`, a failed allocation, is left out: `init_client` is `noexcept` and has no `try`.
-/

namespace Mms

open Lib

/-- Where `start_client` and `main` stand. -/
inductive ControllerPc where
  /-- `init_client()`, which calls `initialize_client`. -/
  | initClient
  | initializing
  /-- The call of `work_client`. -/
  | workClient
  | working
  /-- `std::this_thread::sleep_for(600s)`, then the call of `stop_client`. -/
  | sleep
  | stopping
  /-- `start_client` has returned `rc`; `ctlr` goes out of scope. -/
  | returned (rc : Bool)
  | destroying (rc : Bool)
  /-- `main` has returned. -/
  | exited (rc : Bool)
deriving DecidableEq

namespace ControllerPc

/-- The call of the core that comes next, and where `main` stands during it. -/
def entering : ControllerPc → Option (Core.Call × ControllerPc)
  | .initClient => some (.initializeClient, .initializing)
  | .workClient => some (.workClient, .working)
  | .sleep => some (.stopClient, .stopping)
  | .returned rc => some (.destructor, .destroying rc)
  | _ => none

/-- Where `main` goes on after a statement of the core that leads to `control`. -/
def after (pc : ControllerPc) (control : Control) (label : Core.Label) : ControllerPc :=
  match pc, label with
  | .initializing, .returned .initializeClient error =>
    if error.isSome then .returned true else .workClient
  | .working, .returned .workClient error => if error.isSome then .returned true else .sleep
  -- `catch (std::exception &e)`
  | .working, .threw _ => .returned true
  | .stopping, .returned .stopClient _ => .returned false
  | .destroying rc, _ => if control = .destroyed then .exited rc else .destroying rc
  | pc, _ => pc

/-- What `start_client` has returned. -/
def status : ControllerPc → Option Bool
  | .returned rc | .destroying rc | .exited rc => some rc
  | _ => none

/-- `main` calls `work_client` no more. -/
def ending : ControllerPc → Bool
  | .stopping | .returned _ | .destroying _ | .exited _ => true
  | _ => false

end ControllerPc

/-- The client program: `p_core`, and where `main` stands. -/
structure Controller (N M : ℕ) where
  core : Core N M
  pc : ControllerPc

namespace Controller

variable {N M : ℕ} {decode : Packet → MarketData} {s s' : Controller N M} {l : Core.Label}
  {h : List Core.Label}

/-- What the scheduler chooses: a worker that steps or throws, or the next statement of `main`, with
whether the connection or the construction of the thread succeeds. -/
inductive Move where
  | worker (t : ℕ) (env : Answers)
  | crash (t : ℕ)
  | go (ok : Bool)

def new (orderIdCounter : UInt64) : Controller N M := ⟨.new orderIdCounter, .initClient⟩

/-- A step of the program. -/
def next (decode : Packet → MarketData) :
    Move → Controller N M → Option (Core.Label × Controller N M)
  | .worker t env, s =>
    (Core.next decode (.worker t env) s.core).map fun (l, core) => (l, { s with core := core })
  | .crash t, s =>
    (Core.next decode (.crash t) s.core).map fun (l, core) => (l, { s with core := core })
  | .go ok, s =>
    match s.pc.entering with
    | some (call, pc) =>
      (Core.next decode (.call call) s.core).map fun (l, core) => (l, ⟨core, pc⟩)
    | none =>
      (Core.next decode (.go ok) s.core).map fun (l, core) =>
        (l, ⟨core, s.pc.after core.control l⟩)

/-- The runs of the client program. -/
def client (N M : ℕ) (decode : Packet → MarketData) : LTS (Controller N M) Core.Label :=
  LTS.ofNext (fun s => ∃ orderIdCounter, s = new orderIdCounter) (next decode)

/-! ## What a step does -/

/-- A worker steps or throws. -/
structure WorkerStep (s : Controller N M) (t : ℕ) (l : Core.Label) (s' : Controller N M) :
    Prop where
  core : Core.WorkerStep s.core t l s'.core
  pc : s'.pc = s.pc
  started : s'.core.clientStarted = s.core.clientStarted
  stopped : s'.core.clientStopped = s.core.clientStopped
  label : Core.stepOf t l = true

/-- A move of a worker. -/
theorem workerStep_of_next {m : Core.Move} {t : ℕ} {c' : Core N M}
    (hm : (∃ env, m = .worker t env) ∨ m = .crash t)
    (hn : Core.next decode m s.core = some (l, c')) : WorkerStep s t l ⟨c', s.pc⟩ := by
  obtain ⟨hlabel, hstarted, hstopped⟩ : Core.stepOf t l = true ∧
      c'.clientStarted = s.core.clientStarted ∧ c'.clientStopped = s.core.clientStopped := by
    rcases hm with ⟨env, rfl⟩ | rfl
    · simp only [Core.next] at hn
      split at hn
      · split at hn
        · simp only [Option.some.injEq, Prod.mk.injEq] at hn
          obtain ⟨rfl, rfl⟩ := hn
          exact ⟨beq_self_eq_true t, rfl, rfl⟩
        · exact absurd hn (by simp)
      · exact absurd hn (by simp)
    · simp only [Core.next] at hn
      split at hn
      · split at hn
        · simp only [Option.some.injEq, Prod.mk.injEq] at hn
          obtain ⟨rfl, rfl⟩ := hn
          exact ⟨beq_self_eq_true t, rfl, rfl⟩
        · exact absurd hn (by simp)
      · exact absurd hn (by simp)
  have hs : (Core.core N M decode).step s.core l c' := ⟨m, hn⟩
  rcases Core.step_cases hs with ⟨t', hw⟩ | ⟨call, -, rfl, -⟩ | hg
  · have ht : t' = t := by
      rcases hw.label with ⟨_, _, rfl⟩ | ⟨_, rfl⟩ <;> simpa [Core.stepOf] using hlabel
    exact ⟨ht ▸ hw, rfl, hstarted, hstopped, hlabel⟩
  · exact absurd hlabel (by simp [Core.stepOf])
  · exact absurd hlabel (by simp [hg.stepOf])

/-- **A step is one of a worker or a statement of `main`.** -/
theorem step_cases (hs : (client N M decode).step s l s') :
    (∃ t, WorkerStep s t l s') ∨ ∃ ok, next decode (.go ok) s = some (l, s') := by
  obtain ⟨m, hm⟩ := hs
  cases m with
  | worker t env =>
    obtain ⟨⟨l, c'⟩, hn, hr⟩ := Option.map_eq_some_iff.mp hm
    obtain ⟨rfl, rfl⟩ := Prod.mk.inj hr
    exact Or.inl ⟨t, workerStep_of_next (Or.inl ⟨env, rfl⟩) hn⟩
  | crash t =>
    obtain ⟨⟨l, c'⟩, hn, hr⟩ := Option.map_eq_some_iff.mp hm
    obtain ⟨rfl, rfl⟩ := Prod.mk.inj hr
    exact Or.inl ⟨t, workerStep_of_next (Or.inr rfl) hn⟩
  | go ok => exact Or.inr ⟨ok, hm⟩

/-- **A statement of `main`** is a call of the core or a statement of the core. -/
theorem main_cases {ok : Bool} (hm : next decode (.go ok) s = some (l, s')) :
    (∃ call pc, s.pc.entering = some (call, pc) ∧ s.core.control = .idle ∧ l = .call call ∧
      s' = ⟨{ s.core with control := call.entry }, pc⟩) ∨
    (s.pc.entering = none ∧ ∃ c', s.core.go ok = some (l, c') ∧
      s' = ⟨c', s.pc.after c'.control l⟩) := by
  simp only [next] at hm
  split at hm
  · rename_i call pc hentering
    obtain ⟨⟨l, c'⟩, hn, hr⟩ := Option.map_eq_some_iff.mp hm
    obtain ⟨rfl, rfl⟩ := Prod.mk.inj hr
    simp only [Core.next] at hn
    split at hn
    · rename_i hidle
      simp only [Option.some.injEq, Prod.mk.injEq] at hn
      obtain ⟨rfl, rfl⟩ := hn
      exact Or.inl ⟨call, pc, hentering, hidle, rfl, rfl⟩
    · exact absurd hn (by simp)
  · rename_i hentering
    obtain ⟨⟨l, c'⟩, hn, hr⟩ := Option.map_eq_some_iff.mp hm
    obtain ⟨rfl, rfl⟩ := Prod.mk.inj hr
    exact Or.inr ⟨hentering, c', hn, rfl⟩

/-- A step of the program is one of its core. -/
theorem core_step (hs : (client N M decode).step s l s') :
    (Core.core N M decode).step s.core l s'.core := by
  obtain ⟨m, hm⟩ := hs
  cases m with
  | worker t env =>
    obtain ⟨⟨l, c'⟩, hn, hr⟩ := Option.map_eq_some_iff.mp hm
    obtain ⟨rfl, rfl⟩ := Prod.mk.inj hr
    exact ⟨_, hn⟩
  | crash t =>
    obtain ⟨⟨l, c'⟩, hn, hr⟩ := Option.map_eq_some_iff.mp hm
    obtain ⟨rfl, rfl⟩ := Prod.mk.inj hr
    exact ⟨_, hn⟩
  | go ok =>
    simp only [next] at hm
    split at hm
    all_goals
      obtain ⟨⟨l, c'⟩, hn, hr⟩ := Option.map_eq_some_iff.mp hm
      obtain ⟨rfl, rfl⟩ := Prod.mk.inj hr
      exact ⟨_, hn⟩

/-- **A run of the program is a run of its core.** -/
theorem client_core (hr : (client N M decode).Run h s) : (Core.core N M decode).Run h s.core := by
  induction hr with
  | start h0 =>
    obtain ⟨n, rfl⟩ := h0
    exact .start ⟨n, rfl⟩
  | next _ hs ih => exact ih.next (core_step hs)

end Controller

end Mms
