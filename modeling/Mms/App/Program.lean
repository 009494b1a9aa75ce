import Mms.App.Controller
import Mms.App.Restart

/-!
# A run of the client program

The program calls its core in one way only, so most of what a `Core` can go through it does not.
`Stands` lists the places where `main` and the core stand together; `Sound` is what holds there, and
`left` the statements that `main` still makes.

* `one_pipeline`: each loop is started at most once, and `m_client_running` set at most once.
* `exit_status`: no worker is left when `main` returns, and what its status tells.
* `main_ends`: `main` returns, unless the scheduler starves it.

A step of `receive_loop` may be a `recv` that takes its time; that it returns is not proved here.
`p_market_feed` is destroyed before the network thread is joined, and a step that the thread makes
in `receive_loop` after that is a use after free (`Mms.App.Lifecycle`). The runs below have such
steps, as the statements are written; where a program makes one, they say no more of it.
-/

namespace Mms

open Lib

namespace Controller

variable {N M : ℕ} {decode : Packet → MarketData} {s s' : Controller N M} {l : Core.Label}
  {h : List Core.Label}

/-! ## Where `main` stands -/

open Mms.Core (rank pipelineRoles setsRunning)

/-- The places where `main` and the core stand together, with how many threads have been started by
then and how many of them assigned, and whether `m_client_running` may be set. -/
inductive Stands : ControllerPc → Control → ℕ → ℕ → Bool → Prop
  | initClient : Stands .initClient .idle 0 0 false
  | initializing : Stands .initializing .initClient 0 0 false
  | workClient : Stands .workClient .idle 0 0 false
  | workTest : Stands .working .workTest 0 0 false
  | workInit : Stands .working .workInit 0 0 false
  | setRunning : Stands .working .setRunning 0 0 false
  | clearStopping : Stands .working .clearStopping 0 0 true
  | clearStopped : Stands .working .clearStopped 0 0 true
  | create (role : Role) : Stands .working (.create role) (rank role) (rank role) true
  | assign (role : Role) :
      Stands .working (.assign role (rank role)) (rank role + 1) (rank role) true
  | sleep : Stands .sleep .idle 3 3 true
  | stopTest : Stands .stopping (.stopTest false) 3 3 true
  | setStopping : Stands .stopping (.setStopping false) 3 3 true
  | clearRunning : Stands .stopping (.clearRunning false) 3 3 true
  | setStopped : Stands .stopping (.setStopped false) 3 3 false
  | returned {rc : Bool} {n : ℕ} (hn : n ≤ 3) (hrc : rc = false ↔ n = 3) :
      Stands (.returned rc) .idle n n rc
  | dtorTest {rc : Bool} {n : ℕ} (hn : n ≤ 3) (hrc : rc = false ↔ n = 3) :
      Stands (.destroying rc) (.stopTest true) n n rc
  | dtorStopping {rc : Bool} {n : ℕ} (hn : n ≤ 3) (hrc : rc = false ↔ n = 3) :
      Stands (.destroying rc) (.setStopping true) n n rc
  | dtorClear {rc : Bool} {n : ℕ} (hn : n ≤ 3) (hrc : rc = false ↔ n = 3) :
      Stands (.destroying rc) (.clearRunning true) n n rc
  | dtorStopped {rc : Bool} {n : ℕ} (hn : n ≤ 3) (hrc : rc = false ↔ n = 3) :
      Stands (.destroying rc) (.setStopped true) n n false
  | destroyFeed {rc : Bool} {n : ℕ} (hn : n ≤ 3) (hrc : rc = false ↔ n = 3) :
      Stands (.destroying rc) .destroyFeed n n false
  | destroyThread (role : Role) {rc : Bool} {n : ℕ} (hn : n ≤ 3) (hrc : rc = false ↔ n = 3) :
      Stands (.destroying rc) (.destroyThread role) n n false
  | exited {rc : Bool} {n : ℕ} (hn : n ≤ 3) (hrc : rc = false ↔ n = 3) :
      Stands (.exited rc) .destroyed n n false

/-- The statements `main` still makes inside a call; `stopped` is `m_client_stopped`. -/
def leftIn (stopped : Bool) : Control → ℕ
  | .idle | .destroyed => 0
  | .initClient => 24
  | .workTest => 22
  | .workInit => 21
  | .setRunning => 20
  | .clearStopping => 19
  | .clearStopped => 18
  | .create role => 17 - 2 * rank role
  | .assign role _ => 16 - 2 * rank role
  | .stopTest false => 10
  | .setStopping false => 9
  | .clearRunning false => 8
  | .setStopped false => 7
  | .stopTest true => if stopped then 5 else 8
  | .setStopping true => 7
  | .clearRunning true => 6
  | .setStopped true => 5
  | .destroyFeed => 4
  | .destroyThread role => rank role + 1

/-- The most statements `main` still makes. -/
def leftAt (stopped : Bool) (control : Control) : ControllerPc → ℕ
  | .initClient => 25
  | .workClient => 23
  | .sleep => 11
  | .returned _ => if stopped then 6 else 9
  | .exited _ => 0
  | _ => leftIn stopped control

def left (s : Controller N M) : ℕ := leftAt s.core.clientStopped s.core.control s.pc

/-- The member of the role has been destroyed, so its thread joined. -/
def destroyedMember : Control → Role → Bool
  | .destroyThread r, role => rank r < rank role
  | .destroyed, _ => true
  | _, _ => false

/-- A statement of `main` that fails: a connection refused, or a thread that cannot be made. -/
def failed : Core.Label → Bool
  | .returned _ error => error.isSome
  | .threw _ => true
  | _ => false

/-- A step of `main`. -/
def ofMain : Core.Label → Bool
  | .worker .. | .crash .. => false
  | _ => true

/-- **What every run of the program keeps.** -/
structure Sound (h : List Core.Label) (s : Controller N M) (n m : ℕ) (flag : Bool) : Prop where
  stands : Stands s.pc s.core.control n m flag
  roles : s.core.roles = pipelineRoles.take n
  owned : ∀ role, s.core.jthread role = if rank role < m then some (rank role) else none
  clear : flag = false → s.core.shared.clientRunning = false
  started : s.pc = .workClient ∨ s.pc = .working → s.core.clientStarted = true
  begun : h.countP setsRunning ≤ 1 ∧ (20 ≤ s.left → h.countP setsRunning = 0)
  status : s.pc.status.getD false = h.any failed
  steps : h.countP ofMain + s.left ≤ 25
  joined : ∀ role thread, destroyedMember s.core.control role = true →
    s.core.threads[rank role]? = some thread → thread.live = false

theorem sound_new (orderIdCounter : UInt64) :
    Sound [] (new orderIdCounter : Controller N M) 0 0 false where
  stands := .initClient
  roles := rfl
  owned role := by simp [new, Core.new]
  clear _ := rfl
  started h := absurd h (by simp [new])
  begun := ⟨Nat.zero_le 1, fun _ => rfl⟩
  status := rfl
  steps := Nat.le_refl 25
  joined role _ h := absurd h (by simp [new, Core.new, destroyedMember])

/-- A step of a worker. -/
theorem Sound.worker {n m t : ℕ} {flag : Bool} (ho : Sound h s n m flag)
    (hw : WorkerStep s t l s') : Sound (l :: h) s' n m flag := by
  have hcontrol := hw.core.control
  have hleft : s'.left = s.left := by
    unfold left
    rw [hw.pc, hcontrol, hw.stopped]
  have hlabel : setsRunning l = false ∧ failed l = false ∧ ofMain l = false := by
    rcases hw.core.label with ⟨_, _, rfl⟩ | ⟨_, rfl⟩ <;> exact ⟨rfl, rfl, rfl⟩
  constructor
  · rw [hw.pc, hcontrol]
    exact ho.stands
  · rw [hw.core.roles_eq]
    exact ho.roles
  · rw [hw.core.jthread]
    exact ho.owned
  · intro hflag
    have hclear := ho.clear hflag
    exact Bool.eq_false_iff.mpr fun hr => absurd (hw.core.running hr) (by simp [hclear])
  · rw [hw.pc, hw.started]
    exact ho.started
  · rw [hleft, List.countP_cons_of_neg (by simp [hlabel.1])]
    exact ho.begun
  · rw [hw.pc, List.any_cons, hlabel.2.1, Bool.false_or]
    exact ho.status
  · rw [hleft, List.countP_cons_of_neg (by simp [hlabel.2.2])]
    exact ho.steps
  · intro role thread hmember hth
    obtain ⟨old, thread', hold, hlive, hset, -⟩ := hw.core.thread
    rw [hcontrol] at hmember
    rw [hset] at hth
    -- the thread that steps is live, so another one
    rcases eq_or_ne t (rank role) with rfl | hne
    · exact absurd hlive (by simp [ho.joined role old hmember hold])
    · rw [List.getElem?_set_ne hne] at hth
      exact ho.joined role thread hmember hth

/-- A statement that neither makes a thread nor sets `m_client_running`. -/
theorem Sound.quiet {n m : ℕ} {flag flag' : Bool} (ho : Sound h s n m flag)
    (hstands : Stands s'.pc s'.core.control n m flag')
    (hcore : s'.core.threads = s.core.threads ∧ s'.core.jthread = s.core.jthread)
    (hlabel : setsRunning l = false ∧ ofMain l = true) (hleft : s'.left < s.left)
    (hclear : flag' = false → s'.core.shared.clientRunning = false)
    (hstarted : s'.pc = .workClient ∨ s'.pc = .working → s'.core.clientStarted = true)
    (hstatus : s'.pc.status.getD false = (failed l || s.pc.status.getD false))
    (hjoined : ∀ role thread, destroyedMember s'.core.control role = true →
      s.core.threads[rank role]? = some thread →
      destroyedMember s.core.control role = true ∨ thread.live = false) :
    Sound (l :: h) s' n m flag' := by
  have hcount : (l :: h).countP setsRunning = h.countP setsRunning :=
    List.countP_cons_of_neg (by simp [hlabel.1])
  have hsteps := ho.steps
  refine ⟨hstands, ?_, ?_, hclear, hstarted, ?_, ?_, ?_, ?_⟩
  · unfold Core.roles
    rw [hcore.1]
    exact ho.roles
  · rw [hcore.2]
    exact ho.owned
  · rw [hcount]
    exact ⟨ho.begun.1, fun hle => ho.begun.2 (hle.trans hleft.le)⟩
  · rw [hstatus, List.any_cons, ho.status]
  · rw [List.countP_cons_of_pos hlabel.2]
    omega
  · intro role thread hmember hth
    rw [hcore.1] at hth
    exact (hjoined role thread hmember hth).elim (fun hd => ho.joined role thread hd hth) id

/-- The beginning of a call. -/
theorem Sound.call {n m : ℕ} {flag : Bool} {call : Core.Call} {pc : ControllerPc}
    (ho : Sound h s n m flag) (hentering : s.pc.entering = some (call, pc)) :
    Sound (.call call :: h) ⟨{ s.core with control := call.entry }, pc⟩ n m flag := by
  have hstands := ho.stands
  generalize hpc : s.pc = k at hstands hentering
  generalize hc : s.core.control = control at hstands
  cases hstands with
  | initClient =>
    obtain ⟨rfl, rfl⟩ := Prod.mk.inj (Option.some.inj hentering)
    exact ho.quiet .initializing ⟨rfl, rfl⟩ ⟨rfl, rfl⟩
      (by simp [left, leftAt, leftIn, hpc, Core.Call.entry]) ho.clear (by simp)
      (by simp [failed, hpc, ControllerPc.status]) (by simp [destroyedMember, Core.Call.entry])
  | workClient =>
    obtain ⟨rfl, rfl⟩ := Prod.mk.inj (Option.some.inj hentering)
    exact ho.quiet .workTest ⟨rfl, rfl⟩ ⟨rfl, rfl⟩
      (by simp [left, leftAt, leftIn, hpc, Core.Call.entry]) ho.clear
      (fun _ => ho.started (Or.inl hpc)) (by simp [failed, hpc, ControllerPc.status])
      (by simp [destroyedMember, Core.Call.entry])
  | sleep =>
    obtain ⟨rfl, rfl⟩ := Prod.mk.inj (Option.some.inj hentering)
    exact ho.quiet .stopTest ⟨rfl, rfl⟩ ⟨rfl, rfl⟩
      (by simp [left, leftAt, leftIn, hpc, Core.Call.entry]) ho.clear (by simp)
      (by simp [failed, hpc, ControllerPc.status]) (by simp [destroyedMember, Core.Call.entry])
  | returned hn hrc =>
    obtain ⟨rfl, rfl⟩ := Prod.mk.inj (Option.some.inj hentering)
    refine ho.quiet (.dtorTest hn hrc) ⟨rfl, rfl⟩ ⟨rfl, rfl⟩ ?_ ho.clear (by simp)
      (by simp [failed, hpc, ControllerPc.status]) (by simp [destroyedMember, Core.Call.entry])
    simp only [left, leftAt, leftIn, hpc, Core.Call.entry]
    split <;> decide
  | _ => exact absurd hentering (by simp [ControllerPc.entering])

theorem initializeClient_started {ok : Bool} {c : Core N M} (h : (c.initializeClient ok).1 = none) :
    (c.initializeClient ok).2.clientStarted = true := by
  unfold Core.initializeClient at h ⊢
  split
  · assumption
  · rename_i hstarted
    rw [if_neg hstarted] at h
    simp only at h ⊢
    split
    · rename_i herror
      rw [herror] at h
      exact absurd h (by simp)
    · rfl

/-- A thread whose member is joined has left its loop. -/
theorem Sound.dead {n : ℕ} {flag : Bool} (ho : Sound h s n n flag) {role : Role} {thread : Thread}
    (hj : s.core.joined role = true) (hth : s.core.threads[rank role]? = some thread) :
    thread.live = false := by
  have hlt : rank role < n := by
    have hlen := (List.getElem?_eq_some_iff.mp hth).1
    rw [← Core.length_roles, ho.roles, List.length_take] at hlen
    omega
  unfold Core.joined at hj
  rw [ho.owned, if_pos hlt, Option.bind_some, hth] at hj
  simpa using hj

/-- A statement within a call. -/
theorem Sound.within {n m : ℕ} {flag flag' : Bool} {pc : ControllerPc} {c' : Core N M}
    (ho : Sound h s n m flag) (hpc : s.pc = pc) (hafter : pc.after c'.control l = pc)
    (hlabel : setsRunning l = false ∧ ofMain l = true ∧ failed l = false)
    (hstands : Stands pc c'.control n m flag')
    (hcore : c'.threads = s.core.threads ∧ c'.jthread = s.core.jthread ∧
      c'.clientStarted = s.core.clientStarted)
    (hleft : leftAt c'.clientStopped c'.control pc < leftAt s.core.clientStopped s.core.control pc)
    (hclear : flag' = false → c'.shared.clientRunning = false)
    (hjoined : ∀ role thread, destroyedMember c'.control role = true →
      s.core.threads[rank role]? = some thread →
      destroyedMember s.core.control role = true ∨ thread.live = false) :
    Sound (l :: h) ⟨c', pc.after c'.control l⟩ n m flag' := by
  subst hpc
  rw [hafter]
  refine ho.quiet hstands ⟨hcore.1, hcore.2.1⟩ ⟨hlabel.1, hlabel.2.1⟩ hleft hclear ?_ ?_ hjoined
  · exact fun hpc => hcore.2.2.trans (ho.started hpc)
  · rw [hlabel.2.2, Bool.false_or]

/-- The end of a call, at which `start_client` goes on. -/
theorem Sound.over {n m : ℕ} {flag flag' : Bool} {pc : ControllerPc} {c' : Core N M}
    (ho : Sound h s n m flag) (pc' : ControllerPc) (hpc : s.pc = pc)
    (hafter : pc.after c'.control l = pc')
    (hlabel : setsRunning l = false ∧ ofMain l = true)
    (hstands : Stands pc' c'.control n m flag')
    (hcore : c'.threads = s.core.threads ∧ c'.jthread = s.core.jthread)
    (hleft : leftAt c'.clientStopped c'.control pc' < s.left)
    (hclear : flag' = false → c'.shared.clientRunning = false)
    (hstarted : pc' = .workClient ∨ pc' = .working → c'.clientStarted = true)
    (hstatus : pc.status = none ∧ pc'.status.getD false = failed l)
    (hidle : c'.control = .idle) : Sound (l :: h) ⟨c', pc.after c'.control l⟩ n m flag' := by
  rw [hafter]
  refine ho.quiet hstands hcore hlabel hleft hclear hstarted ?_ fun role thread hmember => ?_
  · rw [hpc, hstatus.1, hstatus.2, Option.getD_none, Bool.or_false]
  · exact absurd hmember (by simp [hidle, destroyedMember])

/-- The construction of a thread. -/
theorem Sound.create {role : Role} (ho : Sound h s (rank role) (rank role) true)
    (hpc : s.pc = .working) (hc : s.core.control = .create role) :
    Sound (.started s.core.threads.length role :: h)
      ⟨{ s.core with
        threads := s.core.threads ++ [Thread.new role]
        control := .assign role s.core.threads.length }, .working⟩
      (rank role + 1) (rank role) true := by
  have hlen : s.core.threads.length = rank role := by
    rw [← Core.length_roles, ho.roles]
    cases role <;> rfl
  have hleft : s.left = 17 - 2 * rank role := by simp [left, leftAt, leftIn, hpc, hc]
  have hleft' : (⟨{ s.core with
      threads := s.core.threads ++ [Thread.new role], control := .assign role (rank role) },
      .working⟩ : Controller N M).left = 16 - 2 * rank role := rfl
  have hrank : rank role < 3 := by cases role <;> decide
  have hsteps := ho.steps
  rw [hlen]
  constructor
  · exact .assign role
  · have hroles := ho.roles
    unfold Core.roles at hroles ⊢
    rw [List.map_append, hroles, Core.take_rank_succ, List.map_singleton, Thread.role_new]
  · exact ho.owned
  · exact fun hf => absurd hf (by simp)
  · exact fun _ => ho.started (Or.inr hpc)
  · rw [List.countP_cons_of_neg (by simp [setsRunning]), hleft']
    exact ⟨ho.begun.1, fun hle => absurd hle (by omega)⟩
  · have hstatus := ho.status
    rw [hpc] at hstatus
    exact hstatus
  · rw [List.countP_cons_of_pos rfl, hleft']
    omega
  · exact fun _ _ hf => absurd hf (by simp [destroyedMember])

/-- Its assignment. -/
theorem Sound.assign {role : Role} (ho : Sound h s (rank role + 1) (rank role) true)
    (hpc : s.pc = .working) (hc : s.core.control = .assign role (rank role)) :
    Sound ((Core.afterStart role).1 :: h)
      ⟨{ s.core with
        jthread := Function.update s.core.jthread role (some (rank role))
        control := (Core.afterStart role).2 },
        ControllerPc.working.after (Core.afterStart role).2 (Core.afterStart role).1⟩
      (rank role + 1) (rank role + 1) true := by
  have howned : ∀ r, Function.update s.core.jthread role (some (rank role)) r =
      if rank r < rank role + 1 then some (rank r) else none := by
    intro r
    rcases eq_or_ne r role with rfl | hne
    · simp
    · rw [Function.update_of_ne hne, ho.owned]
      cases r <;> cases role <;> simp_all [rank]
  have hleft : s.left = 16 - 2 * rank role := by simp [left, leftAt, leftIn, hpc, hc]
  have hrank : rank role < 3 := by cases role <;> decide
  have hstatus := ho.status
  rw [hpc] at hstatus
  have hbegun := ho.begun.1
  have hsteps := ho.steps
  have hstands : Stands (ControllerPc.working.after (Core.afterStart role).2
      (Core.afterStart role).1) (Core.afterStart role).2 (rank role + 1) (rank role + 1) true := by
    cases role with
    | network => exact .create .strategy
    | strategy => exact .create .execution
    | execution => exact .sleep
  have hleft' : leftAt s.core.clientStopped (Core.afterStart role).2
      (ControllerPc.working.after (Core.afterStart role).2 (Core.afterStart role).1) =
      15 - 2 * rank role := by
    cases role <;> rfl
  constructor
  · exact hstands
  · exact ho.roles
  · exact howned
  · exact fun hf => absurd hf (by simp)
  · exact fun _ => ho.started (Or.inr hpc)
  · have hlabel : setsRunning (Core.afterStart role).1 = false := by cases role <;> rfl
    rw [List.countP_cons_of_neg (by simp [hlabel])]
    exact ⟨hbegun, fun hle => absurd (hleft' ▸ hle : 20 ≤ 15 - 2 * rank role) (by omega)⟩
  · have hlabel : failed (Core.afterStart role).1 = false := by cases role <;> rfl
    rw [List.any_cons, hlabel, Bool.false_or, ← hstatus]
    cases role <;> rfl
  · have hlabel : ofMain (Core.afterStart role).1 = true := by cases role <;> rfl
    rw [List.countP_cons_of_pos hlabel]
    change _ + leftAt s.core.clientStopped (Core.afterStart role).2 _ ≤ 25
    rw [hleft']
    omega
  · cases role <;> exact fun _ _ hf => absurd hf (by simp [Core.afterStart, destroyedMember])

/-- A statement of the destructor. -/
theorem Sound.dtor {n m : ℕ} {flag ok rc : Bool} {c' : Core N M} (ho : Sound h s n m flag)
    (hh : s.core.Halts) (hpc : s.pc = .destroying rc) (hg : s.core.go ok = some (l, c')) :
    ∃ n' m' flag', Sound (l :: h) ⟨c', (ControllerPc.destroying rc).after c'.control l⟩
      n' m' flag' := by
  have hstands := ho.stands
  rw [hpc] at hstands
  generalize hc : s.core.control = control at hstands
  cases hstands with
  | dtorTest hn hrc =>
    simp only [Core.go, hc] at hg
    cases hstopped : s.core.clientStopped with
    | true =>
      have hclear := hh.clear (by simp [hc]) hstopped
      simp only [hstopped, if_true, Core.afterStop, Option.some.injEq, Prod.mk.injEq] at hg
      obtain ⟨rfl, rfl⟩ := hg
      refine ⟨n, n, false, ?_⟩
      exact ho.within hpc rfl ⟨rfl, rfl, rfl⟩ (.destroyFeed hn hrc) ⟨rfl, rfl, rfl⟩
        (by simp [leftAt, leftIn, hc, hstopped]) (fun _ => hclear) (by simp [destroyedMember])
    | false =>
      simp only [hstopped, Bool.false_eq_true, if_false, Option.some.injEq, Prod.mk.injEq] at hg
      obtain ⟨rfl, rfl⟩ := hg
      exact ⟨n, n, _, ho.within hpc rfl ⟨rfl, rfl, rfl⟩ (.dtorStopping hn hrc) ⟨rfl, rfl, rfl⟩
        (by simp [leftAt, leftIn, hc, hstopped]) ho.clear (by simp [destroyedMember])⟩
  | dtorStopping hn hrc =>
    simp only [Core.go, hc, Option.some.injEq, Prod.mk.injEq] at hg
    obtain ⟨rfl, rfl⟩ := hg
    exact ⟨n, n, _, ho.within hpc rfl ⟨rfl, rfl, rfl⟩ (.dtorClear hn hrc) ⟨rfl, rfl, rfl⟩
      (by simp [leftAt, leftIn, hc]) ho.clear (by simp [destroyedMember])⟩
  | dtorClear hn hrc =>
    simp only [Core.go, hc, Option.some.injEq, Prod.mk.injEq] at hg
    obtain ⟨rfl, rfl⟩ := hg
    refine ⟨n, n, false, ?_⟩
    exact ho.within hpc rfl ⟨rfl, rfl, rfl⟩ (.dtorStopped hn hrc) ⟨rfl, rfl, rfl⟩
      (by simp [leftAt, leftIn, hc]) (fun _ => rfl) (by simp [destroyedMember])
  | dtorStopped hn hrc =>
    simp only [Core.go, hc, Core.afterStop, if_true, Option.some.injEq, Prod.mk.injEq] at hg
    obtain ⟨rfl, rfl⟩ := hg
    refine ⟨n, n, false, ?_⟩
    exact ho.within hpc rfl ⟨rfl, rfl, rfl⟩ (.destroyFeed hn hrc) ⟨rfl, rfl, rfl⟩
      (by simp [leftAt, leftIn, hc]) ho.clear (by simp [destroyedMember])
  | destroyFeed hn hrc =>
    simp only [Core.go, hc, Option.some.injEq, Prod.mk.injEq] at hg
    obtain ⟨rfl, rfl⟩ := hg
    refine ⟨n, n, false, ?_⟩
    exact ho.within hpc rfl ⟨rfl, rfl, rfl⟩ (.destroyThread .execution hn hrc) ⟨rfl, rfl, rfl⟩
      (by simp [leftAt, leftIn, hc, rank]) ho.clear fun role _ hmember _ =>
        absurd hmember (by cases role <;> simp [destroyedMember, rank])
  | destroyThread role hn hrc =>
    simp only [Core.go, hc] at hg
    split at hg
    · rename_i hj
      simp only [Option.some.injEq, Prod.mk.injEq] at hg
      obtain ⟨rfl, rfl⟩ := hg
      have hjoined : ∀ role' thread, destroyedMember (Core.afterJoin role) role' = true →
          s.core.threads[rank role']? = some thread →
          destroyedMember s.core.control role' = true ∨ thread.live = false := by
        intro role' thread hmember hth
        rcases eq_or_ne role' role with rfl | hne
        · exact Or.inr (ho.dead hj hth)
        · left
          rw [hc]
          cases role <;> cases role' <;> simp_all [Core.afterJoin, destroyedMember, rank]
      have hstatus : s.pc.status = some rc := by
        rw [hpc]
        rfl
      refine ⟨n, n, false, ?_⟩
      cases role with
      | network =>
        refine ho.quiet (.exited hn hrc) ⟨rfl, rfl⟩ ⟨rfl, rfl⟩ ?_ ho.clear ?_ ?_ hjoined
        · simp [left, leftAt, leftIn, hpc, hc, rank, ControllerPc.after, Core.afterJoin]
        · simp [ControllerPc.after, Core.afterJoin]
        · rw [hstatus]
          rfl
      | strategy =>
        exact ho.within hpc rfl ⟨rfl, rfl, rfl⟩ (.destroyThread .network hn hrc) ⟨rfl, rfl, rfl⟩
          (by simp [leftAt, leftIn, hc, rank, Core.afterJoin]) ho.clear hjoined
      | execution =>
        exact ho.within hpc rfl ⟨rfl, rfl, rfl⟩ (.destroyThread .strategy hn hrc) ⟨rfl, rfl, rfl⟩
          (by simp [leftAt, leftIn, hc, rank, Core.afterJoin]) ho.clear hjoined
    · exact absurd hg (by simp)

/-- `m_client_running.store(true)`. -/
theorem Sound.setRunning (ho : Sound h s 0 0 false) (hpc : s.pc = .working)
    (hc : s.core.control = .setRunning) :
    Sound (.begins s.core.threads.length :: h)
      ⟨{ s.core with
        shared := { s.core.shared with clientRunning := true }, control := .clearStopping },
        .working⟩ 0 0 true := by
  have hleft : s.left = 20 := by simp [left, leftAt, leftIn, hpc, hc]
  have hleft' : (⟨{ s.core with
      shared := { s.core.shared with clientRunning := true }, control := .clearStopping },
      .working⟩ : Controller N M).left = 19 := rfl
  have hsteps := ho.steps
  have hbegun := ho.begun.2 hleft.ge
  constructor
  · exact .clearStopping
  · exact ho.roles
  · exact ho.owned
  · exact fun hf => absurd hf (by simp)
  · exact fun _ => ho.started (Or.inr hpc)
  · rw [List.countP_cons_of_pos rfl, hleft', hbegun]
    exact ⟨Nat.le_refl 1, fun hle => absurd hle (by decide)⟩
  · have hstatus := ho.status
    rw [hpc] at hstatus
    exact hstatus
  · rw [List.countP_cons_of_pos rfl, hleft']
    omega
  · exact fun _ _ hf => absurd hf (by simp [destroyedMember])

/-- A statement of `stop_client`. -/
theorem Sound.stop {n m : ℕ} {flag ok : Bool} {c' : Core N M} (ho : Sound h s n m flag)
    (hh : s.core.Halts) (hpc : s.pc = .stopping) (hg : s.core.go ok = some (l, c')) :
    ∃ n' m' flag', Sound (l :: h) ⟨c', ControllerPc.stopping.after c'.control l⟩ n' m' flag' := by
  have hstands := ho.stands
  rw [hpc] at hstands
  generalize hc : s.core.control = control at hstands
  cases hstands with
  | stopTest =>
    simp only [Core.go, hc] at hg
    cases hstopped : s.core.clientStopped with
    | true =>
      have hclear := hh.clear (by simp [hc]) hstopped
      simp only [hstopped, if_true, Core.afterStop, Bool.false_eq_true, if_false,
        Option.some.injEq, Prod.mk.injEq] at hg
      obtain ⟨rfl, rfl⟩ := hg
      refine ⟨3, 3, false, ?_⟩
      exact ho.over (.returned false) hpc rfl ⟨rfl, rfl⟩
        (.returned (Nat.le_refl 3) (by simp)) ⟨rfl, rfl⟩
        (by simp [left, leftAt, leftIn, hpc, hc]) (fun _ => hclear) (by simp)
        ⟨rfl, rfl⟩ rfl
    | false =>
      simp only [hstopped, Bool.false_eq_true, if_false, Option.some.injEq, Prod.mk.injEq] at hg
      obtain ⟨rfl, rfl⟩ := hg
      refine ⟨3, 3, true, ?_⟩
      exact ho.within hpc rfl ⟨rfl, rfl, rfl⟩ .setStopping ⟨rfl, rfl, rfl⟩
        (by simp [leftAt, leftIn, hc]) (by simp) (by simp [destroyedMember])
  | setStopping =>
    simp only [Core.go, hc, Option.some.injEq, Prod.mk.injEq] at hg
    obtain ⟨rfl, rfl⟩ := hg
    refine ⟨3, 3, true, ?_⟩
    exact ho.within hpc rfl ⟨rfl, rfl, rfl⟩ .clearRunning ⟨rfl, rfl, rfl⟩
      (by simp [leftAt, leftIn, hc]) (by simp) (by simp [destroyedMember])
  | clearRunning =>
    simp only [Core.go, hc, Option.some.injEq, Prod.mk.injEq] at hg
    obtain ⟨rfl, rfl⟩ := hg
    refine ⟨3, 3, false, ?_⟩
    exact ho.within hpc rfl ⟨rfl, rfl, rfl⟩ .setStopped ⟨rfl, rfl, rfl⟩
      (by simp [leftAt, leftIn, hc]) (fun _ => rfl) (by simp [destroyedMember])
  | setStopped =>
    simp only [Core.go, hc, Core.afterStop, Bool.false_eq_true, if_false, Option.some.injEq,
      Prod.mk.injEq] at hg
    obtain ⟨rfl, rfl⟩ := hg
    refine ⟨3, 3, false, ?_⟩
    exact ho.over (.returned false) hpc rfl ⟨rfl, rfl⟩ (.returned (Nat.le_refl 3) (by simp))
      ⟨rfl, rfl⟩ (by simp [left, leftAt, leftIn, hpc, hc]) ho.clear (by simp) ⟨rfl, rfl⟩ rfl

/-- A statement of the core, in a call that the program has made. -/
theorem Sound.go {n m : ℕ} {flag ok : Bool} {c' : Core N M} (ho : Sound h s n m flag)
    (hh : s.core.Halts) (hentering : s.pc.entering = none) (hg : s.core.go ok = some (l, c')) :
    ∃ n' m' flag', Sound (l :: h) ⟨c', s.pc.after c'.control l⟩ n' m' flag' := by
  have hstands := ho.stands
  generalize hpc : s.pc = k at hstands hentering
  generalize hc : s.core.control = control at hstands
  cases hstands with
  | initClient | workClient | sleep | returned =>
    exact absurd hentering (by simp [ControllerPc.entering])
  | initializing =>
    simp only [Core.go, hc, Option.some.injEq, Prod.mk.injEq] at hg
    obtain ⟨rfl, rfl⟩ := hg
    obtain ⟨hthreads, hjthread, hrunning⟩ := Core.initializeClient_frame ok s.core
    have hleft : s.left = 24 := by simp [left, leftAt, leftIn, hpc, hc]
    cases he : (s.core.initializeClient ok).1 with
    | none =>
      refine ⟨0, 0, false, ?_⟩
      exact ho.over .workClient hpc rfl ⟨rfl, rfl⟩ .workClient ⟨hthreads, hjthread⟩
        (by simp [hleft, leftAt]) (fun hf => hrunning.trans (ho.clear hf))
        (fun _ => initializeClient_started he) ⟨rfl, rfl⟩ rfl
    | some error =>
      refine ⟨0, 0, true, ho.over (.returned true) hpc rfl ⟨rfl, rfl⟩
        (.returned (Nat.zero_le 3) (by simp)) ⟨hthreads, hjthread⟩ ?_ (by simp) (by simp)
        ⟨rfl, rfl⟩ rfl⟩
      simp only [hleft, leftAt]
      split <;> decide
  | workTest =>
    simp only [Core.go, hc, ho.clear rfl, Bool.false_eq_true, if_false, Option.some.injEq,
      Prod.mk.injEq] at hg
    obtain ⟨rfl, rfl⟩ := hg
    refine ⟨0, 0, false, ?_⟩
    exact ho.within hpc rfl ⟨rfl, rfl, rfl⟩ .workInit ⟨rfl, rfl, rfl⟩
      (by simp [leftAt, leftIn, hc]) ho.clear (by simp [destroyedMember])
  | workInit =>
    have hstarted := ho.started (Or.inr hpc)
    simp only [Core.go, hc, Core.initializeClient, hstarted, if_true, Option.some.injEq,
      Prod.mk.injEq] at hg
    obtain ⟨rfl, rfl⟩ := hg
    refine ⟨0, 0, false, ?_⟩
    exact ho.within hpc rfl ⟨rfl, rfl, rfl⟩ .setRunning ⟨rfl, rfl, hstarted.symm⟩
      (by simp [leftAt, leftIn, hc]) ho.clear (by simp [destroyedMember])
  | setRunning =>
    simp only [Core.go, hc, Option.some.injEq, Prod.mk.injEq] at hg
    obtain ⟨rfl, rfl⟩ := hg
    exact ⟨0, 0, true, ho.setRunning hpc hc⟩
  | clearStopping =>
    simp only [Core.go, hc, Option.some.injEq, Prod.mk.injEq] at hg
    obtain ⟨rfl, rfl⟩ := hg
    refine ⟨0, 0, true, ?_⟩
    exact ho.within hpc rfl ⟨rfl, rfl, rfl⟩ .clearStopped ⟨rfl, rfl, rfl⟩
      (by simp [leftAt, leftIn, hc]) (by simp) (by simp [destroyedMember])
  | clearStopped =>
    simp only [Core.go, hc, Option.some.injEq, Prod.mk.injEq] at hg
    obtain ⟨rfl, rfl⟩ := hg
    refine ⟨0, 0, true, ?_⟩
    exact ho.within hpc rfl ⟨rfl, rfl, rfl⟩ (.create .network) ⟨rfl, rfl, rfl⟩
      (by simp [leftAt, leftIn, hc, rank]) (by simp) (by simp [destroyedMember])
  | create role =>
    have hlt : rank role < 3 := by cases role <;> decide
    simp only [Core.go, hc] at hg
    split at hg
    · simp only [Option.some.injEq, Prod.mk.injEq] at hg
      obtain ⟨rfl, rfl⟩ := hg
      exact ⟨rank role + 1, rank role, true, ho.create hpc hc⟩
    · simp only [Option.some.injEq, Prod.mk.injEq] at hg
      obtain ⟨rfl, rfl⟩ := hg
      refine ⟨rank role, rank role, true, ho.over (.returned true) hpc rfl ⟨rfl, rfl⟩
        (.returned hlt.le (by simp [hlt.ne])) ⟨rfl, rfl⟩ ?_ (by simp) (by simp) ⟨rfl, rfl⟩ rfl⟩
      simp only [left, leftAt, leftIn, hpc, hc]
      split <;> omega
  | assign role =>
    simp only [Core.go, hc] at hg
    split at hg
    · simp only [Option.some.injEq, Prod.mk.injEq] at hg
      obtain ⟨rfl, rfl⟩ := hg
      exact ⟨rank role + 1, rank role + 1, true, ho.assign hpc hc⟩
    · exact absurd hg (by simp)
  | stopTest | setStopping | clearRunning | setStopped => exact ho.stop hh hpc hg
  | exited => exact absurd hg (by simp [Core.go, hc])
  | _ => exact ho.dtor hh hpc hg

theorem sound_step {n m : ℕ} {flag : Bool} (ho : Sound h s n m flag) (hh : s.core.Halts)
    (hs : (client N M decode).step s l s') : ∃ n' m' flag', Sound (l :: h) s' n' m' flag' := by
  rcases step_cases hs with ⟨t, hw⟩ | ⟨ok, hm⟩
  · exact ⟨n, m, flag, ho.worker hw⟩
  · rcases main_cases hm with ⟨call, pc, hentering, -, rfl, rfl⟩ | ⟨hentering, c', hg, rfl⟩
    · exact ⟨n, m, flag, ho.call hentering⟩
    · exact ho.go hh hentering hg

theorem run_sound (hr : (client N M decode).Run h s) : ∃ n m flag, Sound h s n m flag := by
  refine LTS.Run.invariant (I := fun h s => ∃ n m flag, Sound h s n m flag) ?_ ?_ hr
  · rintro _ ⟨n, rfl⟩
    exact ⟨0, 0, false, sound_new n⟩
  · rintro h s l s' hr ⟨n, m, flag, ho⟩ hs
    exact sound_step ho (Core.reachable_halts (client_core hr).reachable) hs

/-! ## The threads, and the exit status -/

/-- **One pipeline.** In every run of the program each loop is started at most once, the network
loop first and the execution loop last; `m_client_running` is set at most once; and so no two
workers have one role. -/
theorem one_pipeline (hr : (client N M decode).Run h s) :
    s.core.roles <+: pipelineRoles ∧ h.countP setsRunning ≤ 1 ∧ s.core.Exclusive := by
  obtain ⟨n, m, flag, ho⟩ := run_sound hr
  have hroles : s.core.roles <+: pipelineRoles := ho.roles ▸ List.take_prefix n _
  refine ⟨hroles, ho.begun.1, fun t t' thread thread' ht ht' _ _ hrole => ?_⟩
  have hnodup : s.core.roles.Nodup := hroles.sublist.nodup (by decide)
  have hat {i : ℕ} {x : Thread} (hi : s.core.threads[i]? = some x) :
      s.core.roles[i]? = some x.role := by
    unfold Core.roles
    rw [List.getElem?_map, hi]
    rfl
  have hlt := (List.getElem?_eq_some_iff.mp (hat ht)).1
  exact (List.getElem?_inj hlt hnodup).mp ((hat ht).trans (hrole ▸ (hat ht').symm))

/-- Everything succeeds. The network thread has left its loop when `p_market_feed` is destroyed, and
the other two have not. -/
def succeeding : List Move :=
  List.replicate 21 (.go true) ++
    [.worker 0 Core.oneTick, .worker 0 Core.oneTick, .go true, .worker 1 Core.oneTick,
      .worker 2 Core.oneTick] ++ List.replicate 3 (.go true)

/-- The run to the end. -/
def succeeded : List Core.Label × Controller 4 4 :=
  (LTS.exec (next Core.anyTick) succeeding ([], new 1)).getD ([], new 1)

theorem one_pipeline_succeeded : succeeded.2.pc = .exited false ∧
    succeeded.2.core.roles <+: pipelineRoles ∧ succeeded.1.countP setsRunning ≤ 1 ∧
    succeeded.2.core.Exclusive := by
  have he : LTS.exec (next Core.anyTick) succeeding ([], new 1) = some succeeded :=
    LTS.exec_getD (by decide +kernel)
  have hr : (client 4 4 Core.anyTick).Run succeeded.1 succeeded.2 :=
    LTS.Run.exec (.start ⟨1, rfl⟩) he
  exact ⟨by decide +kernel, one_pipeline hr⟩

theorem ofMain_iff : ofMain l = true ↔ ∀ t, Core.stepOf t l = false := by
  cases l <;> simp [ofMain, Core.stepOf]

theorem ending_entering {pc pc' : ControllerPc} {call : Core.Call} (hpc : pc.ending = true)
    (he : pc.entering = some (call, pc')) : pc'.ending = true := by
  cases pc with
  | returned rc =>
    obtain ⟨-, rfl⟩ := Prod.mk.inj (Option.some.inj he)
    rfl
  | stopping | destroying rc | exited rc => exact absurd he (by simp [ControllerPc.entering])
  | _ => exact absurd hpc (by decide)

theorem ending_after {pc : ControllerPc} (control : Control) (hpc : pc.ending = true) :
    (pc.after control l).ending = true := by
  unfold ControllerPc.after
  split
  · exact absurd hpc (by decide)
  · exact absurd hpc (by decide)
  · exact absurd hpc (by decide)
  · rfl
  · split <;> rfl
  · exact hpc

/-- Past the call of `work_client` no thread is made. -/
theorem Stands.of_ending {pc : ControllerPc} {control : Control} {n m : ℕ} {flag : Bool}
    (hs : Stands pc control n m flag) (hpc : pc.ending = true) :
    control ≠ .setRunning ∧ ∀ role, control ≠ .create role := by
  cases hs <;> first | exact absurd hpc (by decide) | exact ⟨by simp, by simp⟩

/-- `main` past its call of `work_client`, with `m_client_running` clear. -/
structure Closing (decode : Packet → MarketData) (s : Controller N M) : Prop where
  reachable : (client N M decode).Reachable s
  ending : s.pc.ending = true
  clear : s.core.shared.clientRunning = false

/-- The steps all workers can still make. -/
def togo (s : Controller N M) : ℕ := (s.core.threads.map Thread.togo).sum

/-- **A step at the end**: a worker comes closer to its own, and `main` makes none. -/
theorem Closing.step (hc : Closing decode s) (hs : (client N M decode).step s l s') :
    Closing decode s' ∧ s'.togo + [l].countP (!ofMain ·) ≤ s.togo := by
  have hreach := hc.reachable.next hs
  rcases step_cases hs with ⟨t, hw⟩ | ⟨ok, hm⟩
  · have hclear : s'.core.shared.clientRunning = false :=
      Bool.eq_false_iff.mpr fun hr => absurd (hw.core.running hr) (by simp [hc.clear])
    refine ⟨⟨hreach, hw.pc ▸ hc.ending, hclear⟩, ?_⟩
    rcases Core.wind_cases hc.clear (core_step hs) with ⟨t', hwind⟩ | ⟨call, -, rfl, -⟩ | ⟨-, hnone⟩
    · obtain ⟨thread, thread', hth, hset, -, hlt⟩ := hwind.thread
      have hsum := Core.sum_togo_set hth hlt
      have hone : [l].countP (!ofMain ·) ≤ 1 := List.countP_le_length
      unfold togo
      rw [hset]
      omega
    · exact absurd hw.label (by simp [Core.stepOf])
    · exact absurd hw.label (by simp [hnone])
  · rcases main_cases hm with ⟨call, pc, hentering, -, rfl, rfl⟩ | ⟨hentering, c', hg, rfl⟩
    · exact ⟨⟨hreach, ending_entering hc.ending hentering, hc.clear⟩, Nat.le_refl _⟩
    · obtain ⟨h, hr⟩ := hc.reachable
      obtain ⟨n, m, flag, ho⟩ := run_sound hr
      obtain ⟨hbegins, hcreate⟩ := ho.stands.of_ending hc.ending
      have hgo := Core.goStep_of_go hg
      have hmain : ofMain l = true := ofMain_iff.mpr hgo.stepOf
      obtain ⟨hthreads, hclear⟩ :
          c'.threads = s.core.threads ∧ c'.shared.clientRunning = false := by
        cases hgo with
        | begins h => exact absurd h hbegins
        | started role h => exact absurd h (hcreate role)
        | assigned => exact ⟨rfl, hc.clear⟩
        | other hthreads _ hrunning _ =>
          refine ⟨hthreads, Bool.eq_false_iff.mpr fun hr => ?_⟩
          exact absurd (hrunning hr) (by simp [hc.clear])
      refine ⟨⟨hreach, ending_after _ hc.ending, hclear⟩, ?_⟩
      unfold togo
      simp [hthreads, hmain]

theorem sum_togo_le_windDown (threads : List Thread) :
    (threads.map Thread.togo).sum ≤ ((threads.map Thread.role).map Thread.windDown).sum := by
  induction threads with
  | nil => exact Nat.le_refl 0
  | cons t threads ih =>
    simp only [List.map_cons, List.sum_cons]
    exact Nat.add_le_add t.togo_le ih

/-- All workers of the program together. -/
theorem Sound.togo_le {n m : ℕ} {flag : Bool} (ho : Sound h s n m flag) : s.togo ≤ 15 := by
  refine (sum_togo_le_windDown s.core.threads).trans ?_
  have hroles : s.core.threads.map Thread.role = pipelineRoles.take n := ho.roles
  rw [hroles]
  rcases n with _ | _ | _ | n <;> simp [pipelineRoles, Thread.windDown]

theorem go_of_entering {call : Core.Call} {pc : ControllerPc}
    (hentering : s.pc.entering = some (call, pc)) (hidle : s.core.control = .idle) (ok : Bool) :
    (next decode (.go ok) s).isSome = true := by
  simp [next, hentering, Core.next, hidle]

theorem go_of_core {ok : Bool} (hentering : s.pc.entering = none)
    (hgo : (s.core.go ok).isSome = true) : (next decode (.go ok) s).isSome = true := by
  simpa [next, hentering, Core.next] using hgo

/-- **`main` goes on**, but for a join, whatever the environment answers. -/
theorem Sound.progress {n m : ℕ} {flag : Bool} (ho : Sound h s n m flag) :
    (∃ rc, s.pc = .exited rc) ∨ (∀ ok, (next decode (.go ok) s).isSome = true) ∨
      s.core.shared.clientRunning = false ∧
        ∃ t, ∀ env, (next decode (.worker t env) s).isSome = true := by
  have hstands := ho.stands
  generalize hpc : s.pc = k at hstands
  generalize hc : s.core.control = control at hstands
  cases hstands with
  | exited => exact Or.inl ⟨_, rfl⟩
  | initClient | workClient | sleep | returned =>
    exact Or.inr (Or.inl (go_of_entering (by rw [hpc]; rfl) hc))
  | assign role =>
    -- the member owns no thread before
    have hj : s.core.joined role = true := by
      unfold Core.joined
      rw [ho.owned, if_neg (Nat.lt_irrefl _)]
      rfl
    exact Or.inr (Or.inl fun ok => go_of_core (by rw [hpc]; rfl) (by simp [Core.go, hc, hj]))
  | destroyThread role =>
    by_cases hj : s.core.joined role = true
    · exact Or.inr (Or.inl fun ok => go_of_core (by rw [hpc]; rfl) (by simp [Core.go, hc, hj]))
    · obtain ⟨t, thread, -, hth, hlive⟩ := Core.live_of_not_joined (Bool.eq_false_iff.mpr hj)
      refine Or.inr (Or.inr ⟨ho.clear rfl, t, fun env => ?_⟩)
      simp [next, Core.next, hth, hlive]
  | workTest | workInit | create role | stopTest | dtorTest =>
    refine Or.inr (Or.inl fun ok => go_of_core (by rw [hpc]; rfl) ?_)
    simp only [Core.go, hc]
    split <;> rfl
  | _ => exact Or.inr (Or.inl fun ok => go_of_core (by rw [hpc]; rfl) (by simp [Core.go, hc]))

/-- **The program ends**, unless the scheduler starves `main`. In every run `main` makes at most 25
steps. At any time it has returned, or it can go on whatever the environment answers, or it waits,
with `m_client_running` clear, for a worker that can. And once the flag is clear after the call of
`work_client`, the workers make at most 15 more steps all together. -/
theorem main_ends (hr : (client N M decode).Run h s) :
    h.countP ofMain ≤ 25 ∧
    ((∃ rc, s.pc = .exited rc) ∨ (∀ ok, (next decode (.go ok) s).isSome = true) ∨
      s.core.shared.clientRunning = false ∧
        ∃ t, ∀ env, (next decode (.worker t env) s).isSome = true) ∧
    (s.pc.ending = true → s.core.shared.clientRunning = false → ∀ h' s',
      ((client N M decode).since s).Run h' s' → h'.countP (!ofMain ·) ≤ 15) := by
  obtain ⟨n, m, flag, ho⟩ := run_sound hr
  have hsteps := ho.steps
  refine ⟨by omega, ho.progress, fun hending hclear h' s' hr' => ?_⟩
  have hinv : Closing decode s' ∧ s'.togo + h'.countP (!ofMain ·) ≤ s.togo := by
    refine LTS.Run.invariant (L := (client N M decode).since s)
      (I := fun h' s' => Closing decode s' ∧ s'.togo + h'.countP (!ofMain ·) ≤ s.togo) ?_ ?_ hr'
    · rintro _ rfl
      exact ⟨⟨hr.reachable, hending, hclear⟩, Nat.le_refl _⟩
    · rintro h1 s1 l s2 - ⟨hc, hle⟩ hs
      obtain ⟨hc', hle'⟩ := hc.step hs
      refine ⟨hc', ?_⟩
      rw [List.countP_cons]
      rw [List.countP_singleton] at hle'
      omega
  exact (Nat.le_add_left _ _).trans (hinv.2.trans ho.togo_le)

/-- The program as far as the return of `start_client`. -/
def stopped : List Core.Label × Controller 4 4 :=
  (LTS.exec (next Core.anyTick) (List.replicate 19 (.go true)) ([], new 1)).getD ([], new 1)

/-- From here on the workers make at most 15 steps. -/
theorem main_ends_stopped : stopped.1.countP ofMain = 19 ∧ ∀ h' s',
    ((client 4 4 Core.anyTick).since stopped.2).Run h' s' → h'.countP (!ofMain ·) ≤ 15 := by
  have he : LTS.exec (next Core.anyTick) (List.replicate 19 (.go true)) ([], new 1) =
      some stopped := LTS.exec_getD (by decide +kernel)
  have hr : (client 4 4 Core.anyTick).Run stopped.1 stopped.2 := LTS.Run.exec (.start ⟨1, rfl⟩) he
  exact ⟨by decide +kernel, (main_ends hr).2.2 (by decide +kernel) (by decide +kernel)⟩

end Controller

end Mms
