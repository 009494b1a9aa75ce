import Mms.App.Lifecycle

/-!
# Starting a `Core` again

`stop_client` clears `m_client_running` and waits for no one; `work_client` sets the same flag and
constructs its threads one by one, each before the one its member owned is joined.

* `within c`: what can happen from `c` until the next call, by steps of the workers and of the call
  in progress. `start_within` is the start of one thread in it.
* `one_loop_of_each_role`: as long as every `work_client` sets the flag when the earlier workers
  have left their loops, there is never more than one live worker of a role and no worker outlives
  its run. From any other beginning `work_client` itself leads to two live workers of one role.
  `restart_keeps_old_loop` is a run in which the queue gets a second producer.
* `work_client_atomic_iff`: a failing `work_client` leaves the client stopped, in any schedule, iff
  it fails by the connection error. A construction of a thread that throws leaves the flag set
  (`failed_start_keeps_running`).
-/

namespace Mms

open Lib

namespace Core

variable {N M : ℕ} {decode : Packet → MarketData} {c c' c0 : Core N M} {l : Label} {h : List Label}

/-! ## Inside one call -/

/-- The step begins no further call. -/
def NoCall (_ : Core N M) (l : Label) : Prop := ∀ call, l ≠ .call call

/-- What goes on from `c` until the next call. -/
def within (decode : Packet → MarketData) (c : Core N M) : LTS (Core N M) Label :=
  ((core N M decode).restrict NoCall).since c

theorem reachable_of_within (hr : (core N M decode).Reachable c0)
    (hw : (within decode c0).Reachable c) : (core N M decode).Reachable c :=
  hw.invariant (fun _ h0 => h0 ▸ hr) fun _ _ _ hr hs => hr.next hs.2

theorem go_within (ok : Bool) (hw : (within decode c0).Reachable c)
    (hg : c.go ok = some (l, c')) (hl : ∀ call, l ≠ .call call) :
    (within decode c0).Reachable c' :=
  hw.next ⟨hl, ⟨.go ok, hg⟩⟩

theorem afterStart_ne_call (role : Role) (call : Call) : (afterStart role).1 ≠ .call call := by
  cases role <;> simp [afterStart]

/-- `work_client` from the setting of `m_client_running` to its first thread. -/
theorem begun_within (hw : (within decode c0).Reachable c) (hc : c.control = .setRunning) :
    (within decode c0).Reachable { c with
      shared := { c.shared with clientRunning := true }
      clientStopping := false
      clientStopped := false
      control := .create .network } := by
  have h1 := go_within true hw (by rw [go, hc]) (by simp)
  have h2 := go_within true h1 rfl (by simp)
  exact go_within true h2 rfl (by simp)

/-- The construction of a thread. -/
theorem started_within {role : Role} (hw : (within decode c0).Reachable c)
    (hc : c.control = .create role) :
    (within decode c0).Reachable { c with
      threads := c.threads ++ [Thread.new role], control := .assign role c.threads.length } :=
  go_within true hw (by simp only [go, hc, if_true]; rfl) (by simp)

/-- Its assignment, once the workers of its role have ended. -/
theorem assigned_within {role : Role} {t : ℕ} (hw : (within decode c0).Reachable c)
    (hc : c.control = .assign role t) (hj : c.joined role = true) :
    (within decode c0).Reachable { c with
      jthread := Function.update c.jthread role (some t), control := (afterStart role).2 } :=
  go_within true hw (by simp only [go, hc, hj, if_true]) (afterStart_ne_call role)

/-- A member whose thread is among workers that have ended can be joined, also when workers have
been added since. -/
theorem joined_of_ended {role : Role} {new : List Thread} (hwf : c.Wf)
    (hended : ∀ thread ∈ c.threads, thread.role = role → thread.live = false)
    (hthreads : c'.threads = c.threads ++ new) (hjthread : c'.jthread = c.jthread) :
    c'.joined role = true := by
  unfold joined
  rw [hthreads, hjthread]
  cases ht : c.jthread role with
  | none => rfl
  | some t =>
    have hrole := hwf.owned role t ht
    unfold roles at hrole
    rw [List.getElem?_map, Option.map_eq_some_iff] at hrole
    obtain ⟨thread, hth, hr⟩ := hrole
    have hlt := (List.getElem?_eq_some_iff.mp hth).1
    simp only [Option.bind_some, List.getElem?_append_left hlt, hth,
      hended thread (List.mem_of_getElem? hth) hr, Bool.not_false]

/-- **The start of a thread** when the workers of its role have ended. -/
theorem start_within {role : Role} (hwf : c.Wf) (hw : (within decode c0).Reachable c)
    (hc : c.control = .create role)
    (hended : ∀ thread ∈ c.threads, thread.role = role → thread.live = false) :
    (within decode c0).Reachable { c with
      threads := c.threads ++ [Thread.new role]
      jthread := Function.update c.jthread role (some c.threads.length)
      control := (afterStart role).2 } :=
  assigned_within (started_within hw hc) rfl (joined_of_ended hwf hended rfl rfl)

/-! ## One producer and one consumer -/

/-- No two workers of one role are in their loops. -/
def Exclusive (c : Core N M) : Prop :=
  ∀ (t t' : ℕ) (thread thread' : Thread), c.threads[t]? = some thread →
    c.threads[t']? = some thread' → thread.live = true → thread'.live = true →
    thread.role = thread'.role → t = t'

/-- How many workers had been started when `work_client` last set `m_client_running`. -/
def runBase : List Label → ℕ
  | [] => 0
  | .begins n :: _ => n
  | _ :: h => runBase h

/-- A worker steps only in the run it was started in. -/
def Current : List Label → Prop
  | [] => True
  | l :: h => (∀ t role act, l = .worker t role act → runBase h ≤ t) ∧ Current h

/-- A run begins when every worker started before has left its loop. -/
def BeginsClear (c : Core N M) (l : Label) : Prop :=
  ∀ n, l = .begins n → ∀ thread ∈ c.threads, thread.live = false

theorem runBase_cons (hl : ∀ n, l ≠ .begins n) : runBase (l :: h) = runBase h := by
  cases l with
  | begins n => exact absurd rfl (hl n)
  | _ => rfl

/-- The place of a role in the order `work_client` starts its threads. -/
def rank : Role → ℕ
  | .network => 0
  | .strategy => 1
  | .execution => 2

/-- How many threads of the run have been constructed, while `work_client` is at it. -/
def stage : Control → Option ℕ
  | .clearStopping | .clearStopped => some 0
  | .create role => some (rank role)
  | .assign role _ => some (rank role + 1)
  | _ => none

theorem stage_entry (call : Call) : stage call.entry = none := by cases call <;> rfl

theorem Follows.stage {k : Control} (hf : Follows c l k) :
    stage k = none ∨ stage k = stage c.control := by
  cases hf with
  | stopping hc | stopped hc => exact Or.inr (hc ▸ rfl)
  | stop dtor k hc hk => rcases hk with rfl | rfl | rfl <;> exact Or.inl rfl
  | afterStop dtor => cases dtor <;> exact Or.inl rfl
  | joined role => cases role <;> exact Or.inl rfl
  | _ => exact Or.inl rfl

/-- The labels of `Follows` begin neither a run nor a call, and belong to no worker. -/
theorem Follows.label {k : Control} (hf : Follows c l k) :
    (∀ n, l ≠ .begins n) ∧ (∀ call, l ≠ .call call) ∧ ∀ t role act, l ≠ .worker t role act := by
  cases hf with
  | afterStop dtor => cases dtor <;> simp [Core.afterStop]
  | _ => simp

theorem stage_afterStart (role : Role) :
    stage (afterStart role).2 = none ∨ stage (afterStart role).2 = some (rank role + 1) := by
  cases role with
  | network | strategy => exact Or.inr rfl
  | execution => exact Or.inl rfl

/-- The roles of the workers of a run, in the order of their start. -/
def pipelineRoles : List Role := [.network, .strategy, .execution]

theorem take_rank_succ (role : Role) :
    pipelineRoles.take (rank role + 1) = pipelineRoles.take (rank role) ++ [role] := by
  cases role <;> rfl

/-- What holds as long as every run begins when the workers before it have left their loops. -/
structure OneRun (h : List Label) (c : Core N M) : Prop where
  base_le : runBase h ≤ c.threads.length
  live : ∀ t thread, c.threads[t]? = some thread → thread.live = true → runBase h ≤ t
  started : ∃ k, c.roles.drop (runBase h) = pipelineRoles.take k ∧
    ∀ n, stage c.control = some n → k = n
  current : Current h

theorem OneRun.exclusive (ho : OneRun h c) : Exclusive c := by
  intro t t' thread thread' ht ht' hlive hlive' hrole
  obtain ⟨k, hk, -⟩ := ho.started
  have hnodup : (c.roles.drop (runBase h)).Nodup := by
    rw [hk]
    exact List.Nodup.sublist (List.take_sublist k _) (by decide)
  have hbase := ho.live t thread ht hlive
  have hbase' := ho.live t' thread' ht' hlive'
  -- both stand in the current run, where no role occurs twice
  have hat {i : ℕ} {x : Thread} (hi : c.threads[i]? = some x) (hle : runBase h ≤ i) :
      (c.roles.drop (runBase h))[i - runBase h]? = some x.role := by
    rw [List.getElem?_drop, Nat.add_sub_cancel' hle]
    unfold roles
    rw [List.getElem?_map, hi]
    rfl
  have hlt : t - runBase h < (c.roles.drop (runBase h)).length :=
    (List.getElem?_eq_some_iff.mp (hat ht hbase)).1
  have hsame := (hat ht hbase).trans (hrole ▸ (hat ht' hbase').symm)
  have heq := (List.getElem?_inj hlt hnodup).mp hsame
  omega

theorem OneRun.worker {t : ℕ} (ho : OneRun h c) (hw : WorkerStep c t l c') :
    OneRun (l :: h) c' := by
  obtain ⟨thread, thread', hth, hlive, hset, -, -, hl⟩ := hw.thread
  have hbase : runBase (l :: h) = runBase h :=
    runBase_cons fun n => by rcases hl with ⟨act, rfl⟩ | rfl <;> simp
  refine ⟨?_, fun i x hi hx => ?_, ?_, fun i role act heq => ?_, ho.current⟩
  · rw [hbase, hset, List.length_set]
    exact ho.base_le
  · rw [hbase]
    rw [hset, List.getElem?_set] at hi
    split at hi
    · rename_i heq
      exact heq ▸ ho.live t thread hth hlive
    · exact ho.live i x hi hx
  · rw [hbase, hw.roles_eq, hw.control]
    exact ho.started
  · rcases hl with ⟨act', rfl⟩ | rfl
    · obtain ⟨rfl, -, -⟩ := Label.worker.inj heq
      exact ho.live t thread hth hlive
    · exact absurd heq (by simp)

theorem OneRun.goStep (ho : OneRun h c) (hg : GoStep c l c') (hclear : BeginsClear c l) :
    OneRun (l :: h) c' := by
  cases hg with
  | begins hc =>
    have hended := hclear _ rfl
    refine ⟨le_rfl, fun i x hi hx => ?_, ⟨0, ?_, fun n hn => ?_⟩, by simp, ho.current⟩
    · exact absurd hx (by simp [hended x (List.mem_of_getElem? hi)])
    · exact List.drop_eq_nil_of_le (length_roles c).le
    · exact Option.some.inj hn
  | started role hc =>
    obtain ⟨k, hk, hstage⟩ := ho.started
    have hrank : k = rank role := hstage _ (by rw [hc, stage])
    have hbase : runBase (.started c.threads.length role :: h) = runBase h := rfl
    refine ⟨?_, fun i x hi hx => ?_, ⟨k + 1, ?_, fun n hn => ?_⟩, by simp, ho.current⟩
    · rw [hbase, List.length_append]
      exact Nat.le_add_right_of_le ho.base_le
    · rw [hbase]
      rcases Nat.lt_or_ge i c.threads.length with hlt | hge
      · rw [List.getElem?_append_left hlt] at hi
        exact ho.live i x hi hx
      · exact ho.base_le.trans hge
    · have hlen : runBase h ≤ c.roles.length := (length_roles c).symm ▸ ho.base_le
      rw [hbase]
      unfold roles at hk hlen ⊢
      rw [List.map_append, List.drop_append_of_le_length hlen, hk]
      rw [hrank, take_rank_succ, List.map_singleton, Thread.role_new]
    · rw [hrank]
      exact Option.some.inj hn
  | assigned role t hc hj =>
    obtain ⟨k, hk, hstage⟩ := ho.started
    have hbase : runBase ((afterStart role).1 :: h) = runBase h := by cases role <;> rfl
    refine ⟨hbase ▸ ho.base_le, hbase ▸ ho.live, ⟨k, hbase ▸ hk, fun n hn => ?_⟩, ?_, ho.current⟩
    · rcases stage_afterStart role with hnone | hsome
      · exact absurd (hnone.symm.trans hn) (by simp)
      · exact hstage n (by rw [hc, stage, ← hsome, hn])
    · cases role <;> simp [afterStart]
  | other hthreads hjthread hrunning hf =>
    obtain ⟨k, hk, hstage⟩ := ho.started
    have hbase : runBase (l :: h) = runBase h := runBase_cons hf.label.1
    refine ⟨?_, ?_, ⟨k, ?_, fun n hn => ?_⟩,
      fun t role act hl => absurd hl (hf.label.2.2 t role act), ho.current⟩
    · rw [hbase, hthreads]
      exact ho.base_le
    · rw [hbase, hthreads]
      exact ho.live
    · unfold roles at hk ⊢
      rw [hbase, hthreads, hk]
    · rcases hf.stage with hnone | hsame
      · exact absurd (hnone.symm.trans hn) (by simp)
      · exact hstage n (hsame ▸ hn)

/-- **A run of restarts keeps `OneRun`**, as long as each run begins when no worker is left. -/
theorem restricted_oneRun (hr : ((core N M decode).restrict BeginsClear).Run h c) : OneRun h c := by
  refine LTS.Run.invariant (I := OneRun) (fun c h0 => ?_) (fun h c l c' _ ho hs => ?_) hr
  · obtain ⟨n, rfl⟩ := h0
    exact ⟨le_rfl, fun _ _ _ _ => Nat.zero_le _,
      ⟨0, rfl, fun n hn => absurd hn (by simp [new, stage])⟩, trivial⟩
  · rcases step_cases hs.2 with ⟨t, hw⟩ | ⟨call, -, rfl, rfl⟩ | hg
    · exact ho.worker hw
    · obtain ⟨k, hk, -⟩ := ho.started
      refine ⟨ho.base_le, ho.live, ⟨k, hk, fun n hn => ?_⟩, by simp, ho.current⟩
      exact absurd hn (by simp [stage_entry])
    · exact ho.goStep hg hs.1

/-- A new thread next to a live one of its role. -/
theorem overlap_of_live {role : Role} (hw : (within decode c0).Reachable c)
    (hc : c.control = .create role) {thread : Thread} (hmem : thread ∈ c.threads)
    (hrole : thread.role = role) (hlive : thread.live = true) :
    ∃ c', (within decode c0).Reachable c' ∧ ¬ Exclusive c' := by
  refine ⟨_, started_within hw hc, fun hex => ?_⟩
  obtain ⟨t, ht⟩ := List.mem_iff_getElem?.mp hmem
  have hlt := (List.getElem?_eq_some_iff.mp ht).1
  have heq := hex t c.threads.length thread (Thread.new role)
    (by rw [List.getElem?_append_left hlt, ht]) (by simp) hlive (Thread.live_new role)
    (by rw [hrole, Thread.role_new])
  omega

/-- **An unclean beginning can go wrong**: from a live worker at the beginning of a run, the
statements of `work_client` alone lead to two live workers of one role. -/
theorem exists_overlap (hr : (core N M decode).Reachable c) (hc : c.control = .setRunning)
    {thread : Thread} (hmem : thread ∈ c.threads) (hlive : thread.live = true) :
    ∃ c', (within decode c).Reachable c' ∧ ¬ Exclusive c' := by
  have hwf {c' : Core N M} (hw : (within decode c).Reachable c') : c'.Wf :=
    reachable_wf (reachable_of_within hr hw)
  have h0 := begun_within (LTS.Reachable.start (L := within decode c) rfl) hc
  by_cases hnet : ∃ x ∈ c.threads, x.role = .network ∧ x.live = true
  · obtain ⟨x, hx, hrole, hxlive⟩ := hnet
    exact overlap_of_live h0 rfl hx hrole hxlive
  have hended {role : Role} (hn : ¬ ∃ x ∈ c.threads, x.role = role ∧ x.live = true) :
      ∀ x ∈ c.threads, x.role = role → x.live = false := fun x hx hrole =>
    Bool.eq_false_iff.mpr fun hxlive => hn ⟨x, hx, hrole, hxlive⟩
  have h1 := start_within (hwf h0) h0 rfl (hended hnet)
  by_cases hstrat : ∃ x ∈ c.threads, x.role = .strategy ∧ x.live = true
  · obtain ⟨x, hx, hrole, hxlive⟩ := hstrat
    exact overlap_of_live h1 rfl (List.mem_append_left _ hx) hrole hxlive
  have h2 := start_within (hwf h1) h1 rfl fun x hx hrole => by
    rcases List.mem_append.mp hx with hx | hx
    · exact hended hstrat x hx hrole
    · rw [List.mem_singleton.mp hx] at hrole
      exact absurd hrole (by simp)
  have hexec : thread.role = .execution := by
    cases hrole : thread.role with
    | network => exact absurd ⟨thread, hmem, hrole, hlive⟩ hnet
    | strategy => exact absurd ⟨thread, hmem, hrole, hlive⟩ hstrat
    | execution => rfl
  exact overlap_of_live h2 rfl (List.mem_append_left _ (List.mem_append_left _ hmem)) hexec hlive

/-- **One producer and one consumer, as long as runs do not overlap.** In a run whose every
`work_client` finds the workers started before out of their loops, no two workers of one role are
ever live and no worker goes on in a later run. From any other beginning the statements of that
`work_client` lead to two live workers of one role. -/
theorem one_loop_of_each_role :
    (∀ (h : List Label) (c : Core N M), ((core N M decode).restrict BeginsClear).Run h c →
        Exclusive c ∧ Current h) ∧
      ∀ c : Core N M, (core N M decode).Reachable c → c.control = .setRunning →
        (∃ thread ∈ c.threads, thread.live = true) →
        ∃ c', (within decode c).Reachable c' ∧ ¬ Exclusive c' := by
  constructor
  · intro h c hr
    have ho := restricted_oneRun hr
    exact ⟨ho.exclusive, ho.current⟩
  · rintro c hr hc ⟨thread, hmem, hlive⟩
    exact exists_overlap hr hc hmem hlive

/-- **A restart that does not wait.** The network thread blocks in `recv` while `stop_client` and
the next `work_client` pass; then it pushes its tick, next to the new network thread. -/
theorem restart_keeps_old_loop :
    let decode : Packet → MarketData := fun b => ⟨b[0].toUInt64, 0, 0, 0, .replicate 8 0⟩
    let env : Answers := ⟨some (.replicate 40 7), true, ⟨.replicate 8 0, .hold, 0, 0, 0⟩, 0⟩
    let moves := [.call .workClient] ++ List.replicate 11 (.go true) ++
      List.replicate 3 (.worker 0 env) ++ [.call .stopClient] ++ List.replicate 4 (.go true) ++
      [.call .workClient] ++ List.replicate 6 (.go true) ++ List.replicate 3 (.worker 0 env)
    ∃ h c, LTS.exec (next decode) moves ([], (new 1 : Core 4096 2048)) = some (h, c) ∧
      (core 4096 2048 decode).Run h c ∧
      h.head? = some (.worker 0 .network (.tickPushed ⟨7, 0, 0, 0, .replicate 8 0⟩)) ∧
      ¬ Exclusive c ∧ ¬ Current h := by
  intro decode env moves
  let r := (LTS.exec (next decode) moves ([], (new 1 : Core 4096 2048))).getD ([], new 1)
  have he : LTS.exec (next decode) moves ([], (new 1 : Core 4096 2048)) = some r :=
    LTS.exec_getD (by decide +kernel)
  refine ⟨r.1, r.2, he, LTS.Run.exec (.start ⟨1, rfl⟩) he, by decide +kernel, fun hex => ?_,
    fun hcurrent => ?_⟩
  · have hsame : 0 = 3 := hex 0 3 _ _ rfl rfl rfl rfl rfl
    exact absurd hsame (by decide)
  · have hbase : 3 ≤ 0 := hcurrent.1 0 .network _ rfl
    exact absurd hbase (by decide)

/-! ## A call of `work_client` that fails -/

/-- The ways a call of `work_client` fails: the connection is refused, or the construction of a
thread throws. -/
inductive Failure : Label → Prop
  | refused (e : CoreError) : Failure (.returned .workClient (some e))
  | threw (role : Role) : Failure (.threw role)

/-- A call of `work_client` from `c0`, among any steps of the workers, up to its step `l`. -/
def Attempt (decode : Packet → MarketData) (c0 : Core N M) (l : Label) (c : Core N M) : Prop :=
  ∃ c1 c2, (core N M decode).step c0 (.call .workClient) c1 ∧ (within decode c1).Reachable c2 ∧
    (core N M decode).step c2 l c

/-- `m_client_running` is clear, and no worker that was started after `c0` is in its loop. -/
structure RolledBack (c0 c : Core N M) : Prop where
  running : c.shared.clientRunning = false
  ended : ∀ (t : ℕ) (thread : Thread), c0.threads.length ≤ t → c.threads[t]? = some thread →
    thread.live = false

/-- A connection error comes before the first thread is constructed. -/
theorem unstarted_of_within (hw : (within decode c0).Reachable c)
    (hc : c.control = .workTest ∨ c.control = .workInit) :
    c.threads.length = c0.threads.length := by
  refine hw.invariant (I := fun c => c.control = .workTest ∨ c.control = .workInit →
    c.threads.length = c0.threads.length) (fun c h0 _ => ?_) (fun c l c' ih hs hc' => ?_) hc
  · rw [show c = c0 from h0]
  · rcases step_cases hs.2 with ⟨t, hstep⟩ | ⟨call, -, rfl, -⟩ | hg
    · rw [← length_roles, hstep.roles_eq, length_roles]
      exact ih (hstep.control ▸ hc')
    · exact absurd rfl (hs.1 call)
    · cases hg with
      | begins | started => exact absurd hc' (by simp)
      | assigned role => cases role <;> exact absurd hc' (by simp [afterStart])
      | other hthreads hjthread hrunning hf =>
        rw [hthreads]
        refine ih ?_
        rcases hc' with hc' | hc'
        · exact absurd hc' hf.ne_workTest
        · rcases hf.halted (Or.inl hc') with ⟨hc, -⟩ | hc
          · exact Or.inl hc
          · exact Or.inr hc

theorem initializeClient_connected (c : Core N M) : (c.initializeClient true).1 = none := by
  unfold initializeClient
  split <;> rfl

/-- A worker throws. -/
theorem crashed_within (hw : (within decode c0).Reachable c) {t : ℕ} {thread : Thread}
    (ht : c.threads[t]? = some thread) (hlive : thread.live = true) :
    (within decode c0).Reachable { c with
      threads := c.threads.set t thread.exit
      shared := { c.shared with clientRunning := false } } := by
  have hs : (core N M decode).step c (.crash t thread.role) _ :=
    ⟨.crash t, by simp only [next, ht, hlive, if_true]; rfl⟩
  exact hw.next ⟨fun call => by simp, hs⟩

/-- Every worker may throw, and nothing is left of the workers. -/
theorem ended_within (hw : (within decode c0).Reachable c) :
    ∃ c', (within decode c0).Reachable c' ∧ c'.control = c.control ∧
      (c'.shared.clientRunning = true → c.shared.clientRunning = true) ∧
      ∀ thread ∈ c'.threads, thread.live = false := by
  -- the workers throw one after the other, in the order of their start
  have hfirst (n : ℕ) : ∃ c', (within decode c0).Reachable c' ∧ c'.control = c.control ∧
      (c'.shared.clientRunning = true → c.shared.clientRunning = true) ∧
      c'.threads.length = c.threads.length ∧
      ∀ (t : ℕ) (thread : Thread), t < n → c'.threads[t]? = some thread → thread.live = false := by
    induction n with
    | zero => exact ⟨c, hw, rfl, id, rfl, fun t _ ht => absurd ht t.not_lt_zero⟩
    | succ n ih =>
      obtain ⟨c', hw', hc', hrun', hlen', hended⟩ := ih
      by_cases hn : ∃ thread, c'.threads[n]? = some thread ∧ thread.live = true
      · obtain ⟨thread, hth, hlive⟩ := hn
        refine ⟨_, crashed_within hw' hth hlive, hc', fun h => absurd h (by simp), ?_, ?_⟩
        · rw [List.length_set, hlen']
        · intro t x ht hx
          rw [List.getElem?_set] at hx
          split at hx
          · split at hx
            · exact Option.some.inj hx ▸ thread.live_exit
            · exact absurd hx (by simp)
          · exact hended t x (by omega) hx
      · refine ⟨c', hw', hc', hrun', hlen', fun t x ht hx => ?_⟩
        rcases Nat.lt_succ_iff_lt_or_eq.mp ht with hlt | rfl
        · exact hended t x hlt hx
        · exact Bool.eq_false_iff.mpr fun hlive => hn ⟨x, hx, hlive⟩
  obtain ⟨c', hw', hc', hrun', hlen', hended⟩ := hfirst c.threads.length
  refine ⟨c', hw', hc', hrun', fun thread hmem => ?_⟩
  obtain ⟨t, ht⟩ := List.mem_iff_getElem?.mp hmem
  exact hended t thread (hlen' ▸ (List.getElem?_eq_some_iff.mp ht).1) ht

/-- When no worker is left, `work_client` gets as far as the construction of any of its threads. -/
theorem creating_within (hr : (core N M decode).Reachable c0) (hw : (within decode c0).Reachable c)
    (hc : c.control = .create .network) (hrun : c.shared.clientRunning = true)
    (hended : ∀ thread ∈ c.threads, thread.live = false) (role : Role) :
    ∃ c', (within decode c0).Reachable c' ∧ c'.control = .create role ∧
      c'.shared.clientRunning = true := by
  have hwf {c' : Core N M} (hw : (within decode c0).Reachable c') : c'.Wf :=
    reachable_wf (reachable_of_within hr hw)
  have h1 := start_within (hwf hw) hw hc fun x hx _ => hended x hx
  have h2 := start_within (hwf h1) h1 rfl fun x hx hrole => by
    rcases List.mem_append.mp hx with hx | hx
    · exact hended x hx
    · rw [List.mem_singleton.mp hx] at hrole
      exact absurd hrole (by simp)
  cases role with
  | network => exact ⟨_, hw, hc, hrun⟩
  | strategy => exact ⟨_, h1, rfl, hrun⟩
  | execution => exact ⟨_, h2, rfl, hrun⟩

/-- **The construction of any thread may throw with `m_client_running` set.** -/
theorem exists_threw (hr : (core N M decode).Reachable c0) (hidle : c0.control = .idle)
    (hclear : c0.shared.clientRunning = false) (role : Role) :
    ∃ c, Attempt decode c0 (.threw role) c ∧ c.shared.clientRunning = true := by
  have hcall : (core N M decode).step c0 (.call .workClient) { c0 with control := .workTest } :=
    ⟨.call .workClient, by rw [next, if_pos hidle]; rfl⟩
  have hr1 := hr.next hcall
  obtain ⟨c2, h2, hc2, hrun2, hended⟩ := ended_within (LTS.Reachable.start
    (L := within decode { c0 with control := .workTest }) rfl)
  have hclear2 : c2.shared.clientRunning = false :=
    Bool.eq_false_iff.mpr fun h => absurd (hrun2 h) (by simp [hclear])
  have h3 := go_within true h2
    (by simp only [go, hc2, hclear2, Bool.false_eq_true, if_false]; rfl) (by simp)
  obtain ⟨hthreads, -, -⟩ := initializeClient_frame true { c2 with control := .workInit }
  have h4 := go_within true h3
    (by simp only [go, initializeClient_connected]; rfl) (by simp)
  obtain ⟨c', hw', hc', hrun'⟩ := creating_within hr1 (begun_within h4 rfl) rfl rfl
    (by rw [hthreads]; exact hended) role
  have hthrew : (core N M decode).step c' (.threw role) { c' with control := .idle } :=
    ⟨.go false, by simp only [next, go, hc', Bool.false_eq_true, if_false]⟩
  exact ⟨_, ⟨_, c', hcall, hw', hthrew⟩, hrun'⟩

theorem threads_of_call {call : Call} (hs : (core N M decode).step c (.call call) c') :
    c'.threads = c.threads := by
  generalize hl : Label.call call = l at hs
  rcases step_cases hs with ⟨t, hw⟩ | ⟨call', -, -, rfl⟩ | hg
  · rcases hw.label with ⟨_, _, hworker⟩ | ⟨_, hworker⟩
    · exact absurd (hl.trans hworker) (by simp)
    · exact absurd (hl.trans hworker) (by simp)
  · rfl
  · cases hg with
    | begins | assigned => rfl
    | started => exact absurd hl (by simp)
    | other hthreads => exact hthreads

theorem control_of_refused {e : CoreError}
    (hs : (core N M decode).step c (.returned .workClient (some e)) c') :
    c.control = .workInit ∧ c'.threads = c.threads ∧
      (c'.shared.clientRunning = true → c.shared.clientRunning = true) := by
  generalize hl : Label.returned .workClient (some e) = l at hs
  rcases step_cases hs with ⟨t, hw⟩ | ⟨call, -, hcall, -⟩ | hg
  · rcases hw.label with ⟨_, _, hworker⟩ | ⟨_, hworker⟩
    · exact absurd (hl.trans hworker) (by simp)
    · exact absurd (hl.trans hworker) (by simp)
  · exact absurd (hl.trans hcall) (by simp)
  · cases hg with
    | begins | started => exact absurd hl (by simp)
    | assigned role => cases role <;> exact absurd hl (by simp [afterStart])
    | other hthreads hjthread hrunning hf =>
      refine ⟨?_, hthreads, hrunning⟩
      generalize c'.control = k at hf
      cases hf with
      | refused e hc => exact hc
      | afterStop dtor => cases dtor <;> exact absurd hl (by simp [afterStop])
      | _ => exact absurd hl (by simp)

/-- **Which failures of `work_client` are atomic.** From a reachable core whose client is not
running, a failure leaves `m_client_running` clear and no new worker in its loop, whatever the
schedule, if and only if it is the connection error of `initialize_client`. -/
theorem work_client_atomic_iff (hr : (core N M decode).Reachable c0) (hidle : c0.control = .idle)
    (hclear : c0.shared.clientRunning = false) (hl : Failure l) :
    (∀ c, Attempt decode c0 l c → RolledBack c0 c) ↔
      ∃ e, l = .returned .workClient (some e) := by
  constructor
  · intro hatomic
    cases hl with
    | refused e => exact ⟨e, rfl⟩
    | threw role =>
      obtain ⟨c, hattempt, hrun⟩ := exists_threw hr hidle hclear role
      exact absurd (hatomic c hattempt).running (by simp [hrun])
  · rintro ⟨e, rfl⟩ c ⟨c1, c2, hcall, hw, hs⟩
    obtain ⟨hc2, hthreads, hrun⟩ := control_of_refused hs
    have hlen1 : c1.threads.length = c0.threads.length := by rw [threads_of_call hcall]
    have hr1 : (core N M decode).Reachable c1 := hr.next hcall
    have hclear2 := (reachable_wf (reachable_of_within hr1 hw)).halted (Or.inl hc2)
    refine ⟨Bool.eq_false_iff.mpr fun h => absurd (hrun h) (by simp [hclear2]),
      fun t thread hge ht => ?_⟩
    have hlt := (List.getElem?_eq_some_iff.mp ht).1
    rw [hthreads, unstarted_of_within hw (Or.inr hc2), hlen1] at hlt
    omega

/-- The server is offline. -/
theorem work_client_atomic_iff_offline :
    let decode : Packet → MarketData := fun b => ⟨b[0].toUInt64, 0, 0, 0, .replicate 8 0⟩
    let l : Label := .returned .workClient (some .serverNotOnline)
    let c0 : Core 4096 2048 := new 1
    (∃ c, Attempt decode c0 l c) ∧ ∀ c, Attempt decode c0 l c → RolledBack c0 c := by
  intro decode l c0
  have h1 : (core 4096 2048 decode).step c0 (.call .workClient) _ := ⟨.call .workClient, rfl⟩
  have h2 := go_within true (LTS.Reachable.start (L := within decode _) rfl)
    (c := { c0 with control := .workTest }) rfl (by simp)
  exact ⟨⟨_, _, _, h1, h2, .go false, rfl⟩,
    (work_client_atomic_iff (.start ⟨1, rfl⟩) rfl rfl (.refused _)).mpr ⟨_, rfl⟩⟩

/-- **A thread that cannot be constructed.** The construction of the strategy thread throws: the
client counts as running and the network loop runs, so the next `work_client` returns at once. -/
theorem failed_start_keeps_running :
    let decode : Packet → MarketData := fun b => ⟨b[0].toUInt64, 0, 0, 0, .replicate 8 0⟩
    let env : Answers := ⟨some [], true, ⟨.replicate 8 0, .hold, 0, 0, 0⟩, 0⟩
    let moves := [.call .workClient] ++ List.replicate 7 (.go true) ++ [.go false] ++
      List.replicate 3 (.worker 0 env) ++ [.call .workClient, .go true]
    (∃ c, Attempt decode (new 1 : Core 4096 2048) (.threw .strategy) c ∧ ¬ RolledBack (new 1) c) ∧
      ∃ h c, LTS.exec (next decode) moves ([], (new 1 : Core 4096 2048)) = some (h, c) ∧
        (core 4096 2048 decode).Run h c ∧ .threw .strategy ∈ h ∧
        c.threads = [.network (.loop .recv)] ∧ c.shared.clientRunning = true ∧
        h.head? = some (.returned .workClient none) := by
  intro decode env moves
  constructor
  · have hr : (core 4096 2048 decode).Reachable (new 1) := .start ⟨1, rfl⟩
    obtain ⟨c, hattempt, hrun⟩ := exists_threw hr rfl rfl .strategy
    exact ⟨c, hattempt, fun hrolled => absurd hrolled.running (by simp [hrun])⟩
  · let r := (LTS.exec (next decode) moves ([], (new 1 : Core 4096 2048))).getD ([], new 1)
    have he : LTS.exec (next decode) moves ([], (new 1 : Core 4096 2048)) = some r :=
      LTS.exec_getD (by decide +kernel)
    exact ⟨r.1, r.2, he, LTS.Run.exec (.start ⟨1, rfl⟩) he, by decide +kernel, by decide +kernel,
      by decide +kernel, by decide +kernel⟩

end Core

end Mms
