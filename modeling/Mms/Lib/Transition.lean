import Mathlib.Logic.Relation

/-!
# Labelled transition systems and their histories

A system is a set of initial states and a labelled step relation. A run carries its history, the
labels of its steps with the latest one first, so a law about what happened in a run (how often,
in which order) is a statement about a list.

* `Run.invariant`: what holds initially and is kept by every step holds after every run, of the
  history and the state together.
* `Run.length_add_rank_le`: a rank that falls with every step bounds the length of a run.
* `restrict`: the runs all of whose steps meet a condition on the state before them and the label.
  `restrict_congr`: two conditions that an invariant makes the same have the same runs.
  `next_restrict`: where the label decides the step, such a run goes on iff the next step meets it.
* `since`: the runs that go on from a given state. `Run.potential`: a potential that falls with the
  steps of one kind, and rises with those of another by a bounded amount, bounds the former by the
  latter.
* `seen f h`: what a history says through `f`, oldest first.
* `ofNext`: the system of a next-state function that is given what the environment chooses. `exec`
  runs it on a list of choices, and what it computes is a run (`Run.exec`); so it is with
  `restrict` (`Run.exec_restrict`).
-/

namespace Mms.Lib

/-- A labelled transition system over states `σ` and labels `ε`. -/
structure LTS (σ ε : Type*) where
  init : σ → Prop
  step : σ → ε → σ → Prop

namespace LTS

variable {σ ε : Type*} {L : LTS σ ε}

/-- `L.Run h s`: a run with history `h`, latest label first, ends in `s`. -/
inductive Run (L : LTS σ ε) : List ε → σ → Prop
  | start {s : σ} (h0 : L.init s) : Run L [] s
  | next {h : List ε} {s s' : σ} {e : ε} (hr : Run L h s) (hs : L.step s e s') : Run L (e :: h) s'

/-- The states some run ends in. -/
def Reachable (L : LTS σ ε) (s : σ) : Prop := ∃ h, L.Run h s

/-- The system whose steps also meet `C`. -/
def restrict (L : LTS σ ε) (C : σ → ε → Prop) : LTS σ ε where
  init := L.init
  step s e s' := C s e ∧ L.step s e s'

/-- **The invariant rule**, for a property of the history and the state. -/
theorem Run.invariant {I : List ε → σ → Prop} (h0 : ∀ s, L.init s → I [] s)
    (hs : ∀ h s e s', L.Run h s → I h s → L.step s e s' → I (e :: h) s') {h : List ε} {s : σ}
    (hr : L.Run h s) : I h s := by
  induction hr with
  | start h => exact h0 _ h
  | next hr hstep ih => exact hs _ _ _ _ hr ih hstep

/-- The invariant rule for a property of the state alone. -/
theorem Reachable.invariant {I : σ → Prop} (h0 : ∀ s, L.init s → I s)
    (hs : ∀ s e s', I s → L.step s e s' → I s') {s : σ} (hr : L.Reachable s) : I s := by
  obtain ⟨h, hr⟩ := hr
  exact Run.invariant (I := fun _ s => I s) h0 (fun _ s e s' _ hi hst => hs s e s' hi hst) hr

theorem Run.reachable {h : List ε} {s : σ} (hr : L.Run h s) : L.Reachable s := ⟨h, hr⟩

theorem Reachable.start {s : σ} (h0 : L.init s) : L.Reachable s := ⟨[], .start h0⟩

theorem Reachable.next {s s' : σ} {e : ε} (hr : L.Reachable s) (hs : L.step s e s') :
    L.Reachable s' := by
  obtain ⟨h, hr⟩ := hr
  exact ⟨e :: h, hr.next hs⟩

/-- A restricted run is a run. -/
theorem Run.of_restrict {C : σ → ε → Prop} {h : List ε} {s : σ} (hr : (L.restrict C).Run h s) :
    L.Run h s := by
  induction hr with
  | start h0 => exact .start h0
  | next _ hs ih => exact ih.next hs.2

/-- A condition may be replaced by one that follows from it, by way of an invariant `I` that the
steps meeting the condition keep. -/
theorem Run.restrict_imp {C C' : σ → ε → Prop} {I : σ → Prop} (h0 : ∀ s, L.init s → I s)
    (hs : ∀ s e s', I s → C s e → L.step s e s' → I s')
    (hc : ∀ s e s', I s → C s e → L.step s e s' → C' s e) {h : List ε} {s : σ}
    (hr : (L.restrict C).Run h s) : (L.restrict C').Run h s ∧ I s := by
  induction hr with
  | start hi => exact ⟨.start hi, h0 _ hi⟩
  | next _ hst ih =>
    obtain ⟨hr', hi⟩ := ih
    exact ⟨hr'.next ⟨hc _ _ _ hi hst.1 hst.2, hst.2⟩, hs _ _ _ hi hst.1 hst.2⟩

/-- **Two conditions with the same runs.** -/
theorem Run.restrict_congr {C C' : σ → ε → Prop} {I : σ → Prop} (h0 : ∀ s, L.init s → I s)
    (hs : ∀ s e s', I s → C s e → L.step s e s' → I s')
    (hc : ∀ s e s', I s → L.step s e s' → (C s e ↔ C' s e)) {h : List ε} {s : σ} :
    (L.restrict C).Run h s ↔ (L.restrict C').Run h s := by
  constructor
  · intro hr
    exact (hr.restrict_imp h0 hs fun _ _ _ hi hC hst => (hc _ _ _ hi hst).mp hC).1
  · intro hr
    refine (hr.restrict_imp h0 (fun _ _ _ hi hC hst => ?_) fun _ _ _ hi hC hst => ?_).1
    · exact hs _ _ _ hi ((hc _ _ _ hi hst).mpr hC) hst
    · exact (hc _ _ _ hi hst).mpr hC

/-- In a system in which the label decides the step, a history leads to one state. -/
theorem Run.deterministic (hi : ∀ s s', L.init s → L.init s' → s = s')
    (hd : ∀ s e s₁ s₂, L.step s e s₁ → L.step s e s₂ → s₁ = s₂) {h : List ε} {s s' : σ}
    (hr : L.Run h s) (hr' : L.Run h s') : s = s' := by
  induction hr generalizing s' with
  | start h0 =>
    cases hr' with
    | start h0' => exact hi _ _ h0 h0'
  | next hr hs ih =>
    cases hr' with
    | next hr' hs' =>
      obtain rfl := ih hr'
      exact hd _ _ _ _ hs hs'

/-- **One more step of a restricted run**, in such a system. -/
theorem Run.next_restrict (hi : ∀ s s', L.init s → L.init s' → s = s')
    (hd : ∀ s e s₁ s₂, L.step s e s₁ → L.step s e s₂ → s₁ = s₂) {C : σ → ε → Prop} {h : List ε}
    {s s' : σ} {e : ε} (hr : L.Run h s) (hs : L.step s e s') :
    (L.restrict C).Run (e :: h) s' ↔ (L.restrict C).Run h s ∧ C s e := by
  constructor
  · intro hC
    cases hC with
    | next hC hstep =>
      obtain rfl := hr.deterministic hi hd hC.of_restrict
      exact ⟨hC, hstep.1⟩
  · rintro ⟨hC, he⟩
    exact hC.next ⟨he, hs⟩

/-- The system that starts in `s`. -/
def since (L : LTS σ ε) (s : σ) : LTS σ ε := ⟨fun s' => s' = s, L.step⟩

/-- A run that goes on from a reachable state stays among the reachable ones. -/
theorem Reachable.since {s s' : σ} {h : List ε} (hr : L.Reachable s)
    (hs : (L.since s).Run h s') : L.Reachable s' := by
  induction hs with
  | start h0 => rwa [h0]
  | next _ hstep ih => exact ih.next hstep

/-- **The rank rule.** A rank that falls with every step bounds the length of a run. -/
theorem Run.length_add_rank_le {I : σ → Prop} (rank : σ → Nat) {s0 : σ} (h0 : I s0)
    (hs : ∀ s e s', I s → L.step s e s' → I s' ∧ rank s' < rank s) {h : List ε} {s : σ}
    (hr : (L.since s0).Run h s) : I s ∧ h.length + rank s ≤ rank s0 := by
  induction hr with
  | start hi =>
    obtain rfl := hi
    exact ⟨h0, by simp⟩
  | next _ hstep ih =>
    obtain ⟨hi, hlt⟩ := hs _ _ _ ih.1 hstep
    refine ⟨hi, ?_⟩
    rw [List.length_cons]
    omega

/-- A run and one that goes on from where it ends. -/
theorem Run.append {h h' : List ε} {s s' : σ} (hr : L.Run h s) (hr' : (L.since s).Run h' s') :
    L.Run (h' ++ h) s' := by
  induction hr' with
  | start h0 =>
    obtain rfl := h0
    exact hr
  | next _ hs ih => exact ih.next hs

/-- **The potential rule.** As long as `U` does not hold, a step of the kind `mine` takes one off
the potential and a step of the kind `done` adds at most `c` to it. `U` lasts once it holds. -/
theorem Run.potential (mine done : ε → Bool) (φ : σ → Nat) (c : Nat)
    (U : List ε → σ → Prop) {s0 : σ} (hU : ∀ h s e s', U h s → L.step s e s' → U (e :: h) s')
    (hs : ∀ h s e s', (L.since s0).Run h s → ¬ U h s → L.step s e s' →
      (mine e).toNat + φ s' ≤ φ s + c * (done e).toNat ∨ U (e :: h) s') {h : List ε} {s : σ}
    (hr : (L.since s0).Run h s) : h.countP mine + φ s ≤ φ s0 + c * h.countP done ∨ U h s := by
  have hcount : ∀ (P : ε → Bool) e (h : List ε),
      (e :: h).countP P = h.countP P + (P e).toNat := by
    intro P e h
    rw [List.countP_cons]
    cases P e <;> rfl
  induction hr with
  | start h0 =>
    obtain rfl := h0
    exact Or.inl (by simp)
  | @next h s s' e hr hstep ih =>
    by_cases hu : U h s
    · exact Or.inr (hU _ _ _ _ hu hstep)
    · refine (hs _ _ _ _ hr hu hstep).imp (fun hle => ?_) id
      have hbefore := ih.resolve_right hu
      rw [hcount, hcount, Nat.mul_add]
      omega

/-! ## What a history says -/

/-- The events of a history, read through `f`, oldest first. -/
def seen {α : Type*} (f : ε → Option α) (h : List ε) : List α := (h.filterMap f).reverse

@[simp] theorem seen_nil {α : Type*} (f : ε → Option α) : seen f [] = [] := rfl

theorem seen_cons {α : Type*} (f : ε → Option α) (e : ε) (h : List ε) :
    seen f (e :: h) = seen f h ++ (f e).toList := by
  unfold seen
  rw [List.filterMap_cons]
  cases f e <;> simp

theorem seen_append {α : Type*} (f : ε → Option α) (h h' : List ε) :
    seen f (h' ++ h) = seen f h ++ seen f h' := by
  unfold seen
  rw [List.filterMap_append, List.reverse_append]

/-- As many things are seen as events say one. -/
theorem length_seen {α : Type*} (f : ε → Option α) (h : List ε) :
    (seen f h).length = h.countP fun e => (f e).isSome := by
  unfold seen
  rw [List.length_reverse, List.length_filterMap_eq_countP]

/-! ## Systems that compute -/

variable {ι : Type*} {init : σ → Prop} {next : ι → σ → Option (ε × σ)}

/-- The system of `next`, whose first argument is what the environment chooses. -/
def ofNext (init : σ → Prop) (next : ι → σ → Option (ε × σ)) : LTS σ ε where
  init := init
  step s e s' := ∃ i, next i s = some (e, s')

/-- The steps of a list of choices, added to a history. -/
def exec (next : ι → σ → Option (ε × σ)) : List ι → List ε × σ → Option (List ε × σ)
  | [], r => some r
  | i :: is, (h, s) => (next i s).bind fun (e, s') => exec next is (e :: h, s')

/-- **What `exec` computes is a run.** -/
theorem Run.exec {is : List ι} {h h' : List ε} {s s' : σ} (hr : (ofNext init next).Run h s)
    (he : LTS.exec next is (h, s) = some (h', s')) : (ofNext init next).Run h' s' := by
  induction is generalizing h s with
  | nil =>
    simp only [LTS.exec, Option.some.injEq, Prod.mk.injEq] at he
    obtain ⟨rfl, rfl⟩ := he
    exact hr
  | cons i is ih =>
    obtain ⟨⟨e, s1⟩, h1, h2⟩ := Option.bind_eq_some_iff.mp he
    exact ih (hr.next ⟨i, h1⟩) h2

/-- What `exec` computes from a state is a run that goes on from it. -/
theorem Run.exec_since {is : List ι} {h : List ε} {s0 s : σ}
    (he : LTS.exec next is ([], s0) = some (h, s)) : ((ofNext init next).since s0).Run h s :=
  Run.exec (Run.start rfl : (ofNext (fun s => s = s0) next).Run [] s0) he

/-- The steps that meet `C`. -/
def guarded (C : σ → ε → Prop) [∀ s e, Decidable (C s e)] (next : ι → σ → Option (ε × σ)) (i : ι)
    (s : σ) : Option (ε × σ) :=
  (next i s).filter fun r => decide (C s r.1)

/-- What `exec` computes with the steps that meet `C` is a restricted run. -/
theorem Run.exec_restrict {C : σ → ε → Prop} [∀ s e, Decidable (C s e)] {is : List ι}
    {h h' : List ε} {s s' : σ} (hr : ((ofNext init next).restrict C).Run h s)
    (he : LTS.exec (guarded C next) is (h, s) = some (h', s')) :
    ((ofNext init next).restrict C).Run h' s' := by
  induction is generalizing h s with
  | nil =>
    simp only [LTS.exec, Option.some.injEq, Prod.mk.injEq] at he
    obtain ⟨rfl, rfl⟩ := he
    exact hr
  | cons i is ih =>
    obtain ⟨⟨e, s1⟩, h1, h2⟩ := Option.bind_eq_some_iff.mp he
    obtain ⟨hnext, hc⟩ := Option.filter_eq_some_iff.mp h1
    exact ih (hr.next ⟨of_decide_eq_true hc, i, hnext⟩) h2

theorem Run.exec_restrict_since {C : σ → ε → Prop} [∀ s e, Decidable (C s e)] {is : List ι}
    {h : List ε} {s0 s : σ} (he : LTS.exec (guarded C next) is ([], s0) = some (h, s)) :
    (((ofNext init next).restrict C).since s0).Run h s :=
  Run.exec_restrict
    (Run.start rfl : ((ofNext (fun s => s = s0) next).restrict C).Run [] s0) he

/-- The choices of a list are all possible: where they lead. -/
theorem exec_getD {is : List ι} {r : List ε × σ} (hsome : (exec next is r).isSome = true) :
    exec next is r = some ((exec next is r).getD r) :=
  (Option.getD_of_ne_none (Option.isSome_iff_ne_none.mp hsome) r).symm

end LTS

end Mms.Lib
