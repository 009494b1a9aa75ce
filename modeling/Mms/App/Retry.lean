import Mms.App.Pipeline

/-!
# When the client gives up

`receive_loop` reconnects whenever it finds no client. `failures` counts the connection attempts
that have failed since the last one that succeeded; `RetryLaw` says what it is at every program
counter.

* `retry_law`: the law, in every run of the pipeline.
* `gives_up_after_five`: the loop never makes a sixth attempt in a row, receives only on a
  connection that is up and connects only when none is, and shuts the client down of its own accord
  only after five failures in a row. After these it does so within three steps of its own, and
  neither connects nor receives again.
-/

namespace Mms

open Lib

namespace Pipeline

variable {N M : ℕ} {decode : Packet → MarketData} {h : List Label} {p p' : Pipeline N M} {e : Label}

/-- The connection attempts that have failed since the last one that succeeded. -/
def failures : List Label → ℕ
  | .thread .network (.connect true) :: _ => 0
  | .thread .network (.connect false) :: h => failures h + 1
  | _ :: h => failures h
  | [] => 0

/-- **The attempts that have failed**, by where `receive_loop` stands. -/
def RetryLaw (failed : ℕ) (s : Shared N M) : ReceivePc → Prop
  | .test | .client | .count _ | .push _ | .full _ | .spinTest _ | .spinPush _ => failed = 0
  | .recv => failed = 0 ∧ s.feed.tcpClient = true
  | .retry n => failed = n ∧ n ≤ maxRetries ∧ s.feed.tcpClient = false
  | .reconnect n => failed = n ∧ n < maxRetries ∧ s.feed.tcpClient = false
  | .retried => (s.feed.tcpClient = true ∧ failed = 0) ∨
      (s.feed.tcpClient = false ∧ failed ≤ maxRetries ∧
        (failed = maxRetries ∨ s.clientRunning = false))
  | .giveUp => failed ≤ maxRetries ∧ (failed = maxRetries ∨ s.clientRunning = false)
  | .exited => failed ≤ maxRetries ∧ s.clientRunning = false

/-- The law does not mind what the other threads do. -/
theorem RetryLaw.frame {failed : ℕ} {s s' : Shared N M} {pc : ReceivePc}
    (hl : RetryLaw failed s pc) (hfeed : s'.feed = s.feed)
    (hrunning : s'.clientRunning = true → s.clientRunning = true) : RetryLaw failed s' pc := by
  have hclear : s.clientRunning = false → s'.clientRunning = false := fun hc =>
    Bool.eq_false_iff.mpr fun hr => absurd (hrunning hr) (by simp [hc])
  cases pc with
  | test | client | count | push | full | spinTest | spinPush => exact hl
  | recv => exact ⟨hl.1, hfeed ▸ hl.2⟩
  | retry n | reconnect n => exact ⟨hl.1, hl.2.1, hfeed ▸ hl.2.2⟩
  | retried =>
    rcases hl with ⟨htcp, hzero⟩ | ⟨htcp, hle, hend⟩
    · exact Or.inl ⟨hfeed ▸ htcp, hzero⟩
    · exact Or.inr ⟨hfeed ▸ htcp, hle, hend.imp_right hclear⟩
  | giveUp => exact ⟨hl.1, hl.2.imp_right hclear⟩
  | exited => exact ⟨hl.1, hclear hl.2⟩

/-- **Every step of `receive_loop`** keeps the law. -/
theorem RetryLaw.network {s : Shared N M} {pc : ReceivePc} (hl : RetryLaw (failures h) s pc)
    (env : Answers) :
    RetryLaw (failures (.thread .network (receiveNext decode env pc s).1 :: h))
      (receiveNext decode env pc s).2.2 (receiveNext decode env pc s).2.1 := by
  cases pc with
  | test =>
    have hzero : failures h = 0 := hl
    cases hrun : s.clientRunning with
    | true =>
      simp only [receiveNext, hrun, if_true]
      exact hl
    | false =>
      simp only [receiveNext, hrun, Bool.false_eq_true, if_false]
      exact ⟨hzero.le.trans (Nat.zero_le _), hrun⟩
  | client =>
    have hzero : failures h = 0 := hl
    cases htcp : s.feed.tcpClient with
    | true =>
      simp only [receiveNext, htcp, if_true]
      exact ⟨hl, htcp⟩
    | false =>
      simp only [receiveNext, htcp, Bool.false_eq_true, if_false]
      exact ⟨hl, Nat.zero_le _, htcp⟩
  | retry n =>
    obtain ⟨hn, hle, htcp⟩ := hl
    simp only [receiveNext]
    split
    · rename_i hgo
      exact ⟨hn, hgo.1, htcp⟩
    · rename_i hgo
      -- the retries are used up, or the client was stopped
      have hend : failures h = maxRetries ∨ s.clientRunning = false := by
        rw [not_and_or, Bool.not_eq_true] at hgo
        exact hgo.imp_left fun hge => hn.trans (le_antisymm hle (Nat.le_of_not_lt hge))
      exact Or.inr ⟨htcp, hn.le.trans hle, hend⟩
  | reconnect n =>
    obtain ⟨hn, hlt, htcp⟩ := hl
    cases hconn : env.connected with
    | true =>
      simp only [receiveNext, MarketFeed.reconnect, hconn, if_true, Option.isNone_none]
      exact Or.inl ⟨rfl, rfl⟩
    | false =>
      simp only [receiveNext, MarketFeed.reconnect, hconn, Bool.false_eq_true, if_false,
        Option.isNone_some]
      exact ⟨congrArg Nat.succ hn, hlt, rfl⟩
  | retried =>
    rcases hl with ⟨htcp, hzero⟩ | ⟨htcp, hle, hend⟩
    · simp only [receiveNext, htcp, if_true]
      exact hzero
    · simp only [receiveNext, htcp, Bool.false_eq_true, if_false]
      exact ⟨hle, hend⟩
  | giveUp => exact ⟨hl.1, rfl⟩
  | recv =>
    simp only [receiveNext]
    split
    · exact hl.1
    · split
      · exact hl.1
      · exact hl.1
  | count md => exact hl
  | push md =>
    simp only [receiveNext]
    split <;> exact hl
  | full md => exact hl
  | spinTest md =>
    simp only [receiveNext]
    split <;> exact hl
  | spinPush md =>
    simp only [receiveNext]
    split <;> exact hl
  | exited => exact hl

/-- **The law, in every run.** -/
theorem retry_law (hr : (pipeline N M decode).Run h p) :
    RetryLaw (failures h) p.shared p.receive := by
  refine LTS.Run.invariant (I := fun h p => RetryLaw (failures h) p.shared p.receive)
    (fun p h0 => ?_) (fun h p e p' _ hl hs => ?_) hr
  · rw [h0.1]
    rfl
  · obtain ⟨m, hm⟩ := hs
    cases m with
    | thread role env =>
      cases role with
      | network =>
        simp only [next, Option.some.injEq, Prod.mk.injEq] at hm
        obtain ⟨rfl, rfl⟩ := hm
        exact hl.network env
      | strategy =>
        simp only [next, Option.some.injEq, Prod.mk.injEq] at hm
        obtain ⟨rfl, rfl⟩ := hm
        obtain ⟨hrun, hfeed, -⟩ := strategyNext_frame env p.strategy p.shared
        exact hl.frame hfeed fun hr => hrun ▸ hr
      | execution =>
        simp only [next, Option.some.injEq, Prod.mk.injEq] at hm
        obtain ⟨rfl, rfl⟩ := hm
        obtain ⟨hrun, hfeed, -⟩ := executionNext_frame env p.execution p.shared
        exact hl.frame hfeed fun hr => hrun ▸ hr
    | stop =>
      simp only [next, Option.some.injEq, Prod.mk.injEq] at hm
      obtain ⟨rfl, rfl⟩ := hm
      exact hl.frame rfl fun hr => absurd hr (by simp)

/-- The failures never exceed the retries. -/
theorem RetryLaw.le {failed : ℕ} {s : Shared N M} {pc : ReceivePc} (hl : RetryLaw failed s pc) :
    failed ≤ maxRetries := by
  cases pc with
  | test | client | count | push | full | spinTest | spinPush =>
    have hzero : failed = 0 := hl
    omega
  | recv =>
    have hzero := hl.1
    omega
  | retry n | reconnect n =>
    obtain ⟨hn, hle, -⟩ := hl
    omega
  | retried =>
    rcases hl with ⟨-, hzero⟩ | ⟨-, hle, -⟩
    · omega
    · exact hle
  | giveUp | exited => exact hl.1

/-- What a step of `receive_loop` does to the connection, by where the loop stands. -/
theorem receiveNext_acts (decode : Packet → MarketData) (env : Answers) (pc : ReceivePc)
    (s : Shared N M) :
    (∀ ok, (receiveNext decode env pc s).1 = .connect ok → ∃ n, pc = .reconnect n) ∧
    (∀ r, (receiveNext decode env pc s).1 = .recv r → pc = .recv) ∧
    (s.clientRunning = true → (receiveNext decode env pc s).2.2.clientRunning = false →
      pc = .giveUp) := by
  unfold receiveNext
  split <;> (try split) <;> simp_all

/-! ## The retries are used up -/

/-- The steps `receive_loop` still makes when its retries are used up. -/
def toExit : ReceivePc → ℕ
  | .retry _ => 3
  | .retried => 2
  | .giveUp => 1
  | _ => 0

/-- Where `receive_loop` stands after five failures. -/
theorem RetryLaw.exhausted {s : Shared N M} {pc : ReceivePc} (hl : RetryLaw maxRetries s pc) :
    pc = .retry maxRetries ∨ pc = .retried ∧ s.feed.tcpClient = false ∨ pc = .giveUp ∨
      pc = .exited ∧ s.clientRunning = false := by
  have hne : maxRetries ≠ 0 := by decide
  cases pc with
  | test | client | count | push | full | spinTest | spinPush => exact absurd hl hne
  | recv => exact absurd hl.1 hne
  | retry n =>
    obtain rfl := hl.1
    exact Or.inl rfl
  | reconnect n => exact absurd (hl.1 ▸ hl.2.1) (Nat.lt_irrefl _)
  | retried =>
    rcases hl with ⟨-, hzero⟩ | ⟨htcp, -, -⟩
    · exact absurd hzero hne
    · exact Or.inr (Or.inl ⟨rfl, htcp⟩)
  | giveUp => exact Or.inr (Or.inr (Or.inl rfl))
  | exited => exact Or.inr (Or.inr (Or.inr ⟨rfl, hl.2⟩))

/-- **A step after five failures**: one of `receive_loop` neither connects nor receives, and brings
it closer to its end. -/
theorem exhausted_step (hl : RetryLaw (failures h) p.shared p.receive)
    (hfive : failures h = maxRetries) (hs : (pipeline N M decode).step p e p') :
    failures (e :: h) = maxRetries ∧ (∀ act, e = .thread .network act → act = .tau) ∧
      ((stepOf .network e).toNat + toExit p'.receive ≤ toExit p.receive ∨
        p'.receive = .exited) ∧ (p.receive = .exited → p'.receive = .exited) := by
  rcases step_cases hs with ⟨env, rfl, rfl⟩ | ⟨env, rfl, rfl⟩ | ⟨env, rfl, rfl⟩ | ⟨rfl, rfl⟩
  · rw [hfive] at hl
    rcases hl.exhausted with hpc | ⟨hpc, htcp⟩ | hpc | ⟨hpc, -⟩
    · simp only [hpc, receiveNext, Nat.lt_irrefl, false_and, if_false]
      exact ⟨hfive, by simp, Or.inl (Nat.le_refl 3), by simp⟩
    · simp only [hpc, receiveNext, htcp, Bool.false_eq_true, if_false]
      exact ⟨hfive, by simp, Or.inl (Nat.le_refl 2), by simp⟩
    · simp only [hpc, receiveNext]
      exact ⟨hfive, by simp, Or.inr trivial, fun _ => trivial⟩
    · simp only [hpc, receiveNext]
      exact ⟨hfive, by simp, Or.inr trivial, fun _ => trivial⟩
  · exact ⟨hfive, by simp, Or.inl (by simp [stepOf]), id⟩
  · exact ⟨hfive, by simp, Or.inl (by simp [stepOf]), id⟩
  · exact ⟨hfive, by simp, Or.inl (by simp [stepOf]), id⟩

/-- What the steps after five failures have done. -/
structure Exhausted (h h' : List Label) (p : Pipeline N M) : Prop where
  five : failures (h' ++ h) = maxRetries
  silent : ∀ act, Label.thread .network act ∈ h' → act = .tau
  left : h'.countP (stepOf .network) + toExit p.receive ≤ 3 ∨ p.receive = .exited

theorem exhausted_run (hr : (pipeline N M decode).Run h p) (hfive : failures h = maxRetries)
    {h' : List Label} (hr' : ((pipeline N M decode).since p).Run h' p') : Exhausted h h' p' := by
  refine LTS.Run.invariant (L := (pipeline N M decode).since p) (I := Exhausted h) ?_ ?_ hr'
  · rintro p' rfl
    refine ⟨hfive, fun act hmem => absurd hmem List.not_mem_nil, Or.inl ?_⟩
    rw [List.countP_nil, Nat.zero_add]
    cases p'.receive <;> simp [toExit]
  · rintro h1 p1 e p2 hr1 hi hs
    obtain ⟨hfive', htau, hstep, hstays⟩ :=
      exhausted_step (retry_law (hr.append hr1)) hi.five hs
    refine ⟨hfive', fun act hmem => ?_, ?_⟩
    · rcases List.mem_cons.mp hmem with he | hmem
      · exact htau act he.symm
      · exact hi.silent act hmem
    · rcases hi.left with hle | hexit
      · refine hstep.imp_left fun hlt => ?_
        have hcount : (e :: h1).countP (stepOf .network) =
            h1.countP (stepOf .network) + (stepOf .network e).toNat := by
          rw [List.countP_cons]
          cases stepOf .network e <;> rfl
        omega
      · exact Or.inr (hstays hexit)

/-- **The client does give up**: after three steps of `receive_loop`. -/
theorem Exhausted.exited {h' : List Label} (hi : Exhausted h h' p)
    (hl : RetryLaw (failures (h' ++ h)) p.shared p.receive)
    (hthree : 3 ≤ h'.countP (stepOf .network)) :
    p.receive = .exited ∧ p.shared.clientRunning = false := by
  rw [hi.five] at hl
  rcases hl.exhausted with hpc | ⟨hpc, -⟩ | hpc | hexit
  case inr.inr.inr => exact hexit
  all_goals
    -- a step of `receive_loop` is still missing
    have hpos : 0 < toExit p.receive := by
      rw [hpc]
      decide
    rcases hi.left with hle | hexit
    · omega
    · exact absurd (hpc.symm.trans hexit) (by simp)

/-- **The client gives up after five failures.** In every run of the pipeline at most five
connection attempts fail in a row. After the fifth, `receive_loop` neither connects nor receives,
and once it has made three more steps of its own, whatever the other threads do in between, it has
left the loop and `m_client_running` is clear. A step of it connects only while no connection is up
and fewer than five attempts have failed, receives only on a connection that is up, and clears
`m_client_running` only after five failures in a row. -/
theorem gives_up_after_five (hr : (pipeline N M decode).Run h p) :
    failures h ≤ maxRetries ∧
    (failures h = maxRetries → ∀ h' p', ((pipeline N M decode).since p).Run h' p' →
      (∀ act, Label.thread .network act ∈ h' → act = .tau) ∧
        (3 ≤ h'.countP (stepOf .network) →
          p'.receive = .exited ∧ p'.shared.clientRunning = false)) ∧
    ∀ act p', (pipeline N M decode).step p (.thread .network act) p' →
      (∀ ok, act = .connect ok → p.shared.feed.tcpClient = false ∧ failures h < maxRetries) ∧
      (∀ r, act = .recv r → p.shared.feed.tcpClient = true ∧ failures h = 0) ∧
      (p.shared.clientRunning = true → p'.shared.clientRunning = false →
        failures h = maxRetries ∧ p'.receive = .exited) := by
  have hl := retry_law hr
  refine ⟨hl.le, fun hfive h' p' hr' => ?_, fun act p' hs => ?_⟩
  · have hi := exhausted_run hr hfive hr'
    exact ⟨hi.silent, hi.exited (retry_law (hr.append hr'))⟩
  obtain ⟨m, hm⟩ := hs
  obtain ⟨env, hact, hp'⟩ : ∃ env, (receiveNext decode env p.receive p.shared).1 = act ∧
      { p with
        receive := (receiveNext decode env p.receive p.shared).2.1
        shared := (receiveNext decode env p.receive p.shared).2.2 } = p' := by
    cases m with
    | thread role env => cases role <;> simp [next] at hm; exact ⟨env, hm⟩
    | stop => simp [next] at hm
  obtain ⟨hconnect, hrecv, hclear⟩ := receiveNext_acts decode env p.receive p.shared
  subst hact hp'
  refine ⟨fun ok hok => ?_, fun r hr => ?_, fun hrun hstop => ?_⟩
  · obtain ⟨n, hpc⟩ := hconnect ok hok
    rw [hpc] at hl
    obtain ⟨hn, hlt, htcp⟩ := hl
    exact ⟨htcp, by omega⟩
  · rw [hrecv r hr] at hl
    exact ⟨hl.2, hl.1⟩
  · have hpc := hclear hrun hstop
    rw [hpc] at hl ⊢
    exact ⟨hl.2.resolve_right (by simp [hrun]), rfl⟩

/-- Nobody answers: the fifth attempt has failed after twelve steps, and three more lead out of the
loop. -/
theorem gives_up_after_five_offline :
    let decode : Packet → MarketData := fun b => ⟨b[0].toUInt64, 0, 0, 0, .replicate 8 0⟩
    let p0 : Pipeline 1 1 := ⟨.test, .test, .test,
      ⟨true, Fifo.empty, Fifo.empty, ⟨false, false, 0, 0⟩, 0, 0, 1⟩⟩
    let env : Answers := ⟨none, false, ⟨.replicate 8 0, .hold, 0, 0, 0⟩, 0⟩
    let network := Move.thread .network env
    let r := (LTS.exec (next decode) (List.replicate 12 network) ([], p0)).getD ([], p0)
    let r' := (LTS.exec (next decode) [network, .thread .strategy env, network, network]
      ([], r.2)).getD ([], r.2)
    r.2.shared.clientRunning = true ∧ failures r.1 = 5 ∧
      (∀ act, Label.thread .network act ∈ r'.1 → act = .tau) ∧
      r'.2.receive = .exited ∧ r'.2.shared.clientRunning = false := by
  intro decode p0 env network r r'
  have he : LTS.exec (next decode) (List.replicate 12 network) ([], p0) = some r :=
    LTS.exec_getD (by decide +kernel)
  have hrun : (pipeline 1 1 decode).Run r.1 r.2 :=
    LTS.Run.exec (.start ⟨rfl, rfl, rfl, rfl, rfl, rfl, rfl, rfl⟩) he
  have he' : LTS.exec (next decode) [network, .thread .strategy env, network, network]
      ([], r.2) = some r' := LTS.exec_getD (by decide +kernel)
  have hrun' : ((pipeline 1 1 decode).since r.2).Run r'.1 r'.2 := LTS.Run.exec_since he'
  have hfive : failures r.1 = 5 := by decide +kernel
  obtain ⟨hsilent, hexit⟩ := (gives_up_after_five hrun).2.1 hfive _ _ hrun'
  exact ⟨by decide +kernel, hfive, hsilent, hexit (by decide +kernel)⟩

end Pipeline

end Mms
