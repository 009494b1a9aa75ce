import Mathlib.Data.List.Basic

/-!
# Bounded queues

`Fifo α cap` is a queue of at most `cap` items, oldest first.

* `push_eq_none`, `pop_eq_none`: a push fails, without effect, exactly when the queue is full; a pop
  fails exactly when it is empty.
* `Carries pushed popped q`: everything pushed so far was popped, in the same order, or is still in
  `q`. A push and a pop keep it (`Carries.push`, `Carries.pop`), so it holds of the pushes and pops
  of any number of threads in any order.
* `offer`: a push that is not checked, so what does not fit is lost. `Loses offered popped lost q`
  is what is left of `Carries` then: the order is kept, and what is missing is counted.
-/

namespace Mms.Lib

/-- A queue of at most `cap` items, oldest first. -/
structure Fifo (α : Type*) (cap : ℕ) where
  items : List α
  bound : items.length ≤ cap

namespace Fifo

variable {α : Type*} {cap : ℕ}

/-- The queue as constructed. -/
def empty : Fifo α cap := ⟨[], Nat.zero_le cap⟩

/-- Append an item, unless the queue is full. -/
def push (q : Fifo α cap) (a : α) : Option (Fifo α cap) :=
  if h : q.items.length < cap then
    some ⟨q.items ++ [a], by rw [List.length_append]; exact h⟩
  else none

/-- Take the oldest item, unless the queue is empty. -/
def pop : Fifo α cap → Option (α × Fifo α cap)
  | ⟨[], _⟩ => none
  | ⟨a :: items, h⟩ => some (a, ⟨items, Nat.le_of_succ_le h⟩)

theorem push_eq_some {q q' : Fifo α cap} {a : α} (h : q.push a = some q') :
    q'.items = q.items ++ [a] := by
  unfold push at h
  split at h
  · rw [← Option.some.inj h]
  · exact absurd h (by simp)

theorem push_eq_none {q : Fifo α cap} {a : α} : q.push a = none ↔ q.items.length = cap := by
  have hb := q.bound
  unfold push
  split
  · simp only [reduceCtorEq, false_iff]
    omega
  · simp only [true_iff]
    omega

theorem pop_eq_some {q q' : Fifo α cap} {a : α} (h : q.pop = some (a, q')) :
    q.items = a :: q'.items := by
  obtain ⟨items, hb⟩ := q
  cases items with
  | nil => exact absurd h (by simp [pop])
  | cons b items =>
    simp only [pop, Option.some.injEq, Prod.mk.injEq] at h
    obtain ⟨rfl, rfl⟩ := h
    rfl

theorem pop_eq_none {q : Fifo α cap} : q.pop = none ↔ q.items = [] := by
  obtain ⟨items, hb⟩ := q
  cases items <;> simp [pop]

/-- What was pushed was popped, in order, or is still queued. -/
def Carries (pushed popped : List α) (q : Fifo α cap) : Prop := pushed = popped ++ q.items

theorem carries_empty : Carries [] [] (empty : Fifo α cap) := rfl

theorem Carries.push {pushed popped : List α} {q q' : Fifo α cap} {a : α}
    (hc : Carries pushed popped q) (h : q.push a = some q') :
    Carries (pushed ++ [a]) popped q' := by
  unfold Carries at hc ⊢
  rw [push_eq_some h, hc, List.append_assoc]

theorem Carries.pop {pushed popped : List α} {q q' : Fifo α cap} {a : α}
    (hc : Carries pushed popped q) (h : q.pop = some (a, q')) :
    Carries pushed (popped ++ [a]) q' := by
  unfold Carries at hc ⊢
  rw [hc, pop_eq_some h, List.append_assoc, List.singleton_append]

/-- Append an item, or lose it when the queue is full: whether it was stored, and the queue. -/
def offer (q : Fifo α cap) (a : α) : Bool × Fifo α cap :=
  match q.push a with
  | some q' => (true, q')
  | none => (false, q)

/-- What was offered was popped, in order, or is still queued, or is one of `lost`. -/
structure Loses (offered popped : List α) (lost : ℕ) (q : Fifo α cap) : Prop where
  sublist : (popped ++ q.items).Sublist offered
  length : offered.length = popped.length + q.items.length + lost

theorem loses_empty : Loses [] [] 0 (empty : Fifo α cap) := ⟨List.Sublist.refl _, rfl⟩

theorem Loses.offer {offered popped : List α} {lost : ℕ} {q : Fifo α cap}
    (hl : Loses offered popped lost q) (a : α) :
    Loses (offered ++ [a]) popped (if (q.offer a).1 then lost else lost + 1) (q.offer a).2 := by
  have hlen := hl.length
  unfold Fifo.offer
  cases hp : q.push a with
  | some q' =>
    have hq := push_eq_some hp
    refine ⟨?_, ?_⟩
    · rw [hq, ← List.append_assoc]
      exact hl.sublist.append_right _
    · rw [hq, List.length_append, List.length_append, if_pos rfl]
      omega
  | none =>
    refine ⟨hl.sublist.trans (List.sublist_append_left _ _), ?_⟩
    change (offered ++ [a]).length = popped.length + q.items.length + (lost + 1)
    rw [List.length_append, hlen]
    rfl

theorem Loses.pop {offered popped : List α} {lost : ℕ} {q q' : Fifo α cap} {a : α}
    (hl : Loses offered popped lost q) (h : q.pop = some (a, q')) :
    Loses offered (popped ++ [a]) lost q' := by
  have hq := pop_eq_some h
  obtain ⟨hsub, hlen⟩ := hl
  rw [hq] at hsub hlen
  refine ⟨by rwa [List.append_assoc], ?_⟩
  rw [List.length_append, List.length_singleton]
  rw [List.length_cons] at hlen
  omega

end Fifo

end Mms.Lib
