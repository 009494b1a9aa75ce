import Mms.Lib.Fields

/-!
# Blocks of a list

`Blocks ys n e xs` says what a receiver got of a sequence that breaks off at times and goes on
later: `xs` is `n` blocks of `ys`, one behind the other, and the last of them ends before position
`e`. Within a block nothing is missing; between two blocks anything may be.

* `Blocks.sublist`: so `xs` has the order of `ys`, and nothing twice.
* `Blocks.append_right`: a sequence that goes on keeps its blocks.
-/

namespace Mms.Lib

variable {α : Type*}

/-- `xs` is `n` blocks of `ys`, in order and disjoint, before position `e`. -/
inductive Blocks (ys : List α) : ℕ → ℕ → List α → Prop
  | nil : Blocks ys 0 0 []
  | snoc {n e off : ℕ} {xs : List α} (hb : Blocks ys n e xs) (w : ℕ) (hoff : e ≤ off) :
      Blocks ys (n + 1) (off + w) (xs ++ slice ys off w)

/-- **Blocks keep the order.** -/
theorem Blocks.sublist {ys xs : List α} {n e : ℕ} (hb : Blocks ys n e xs) :
    xs.Sublist (ys.take e) := by
  induction hb with
  | nil => exact List.Sublist.refl _
  | @snoc n e off xs _ w hoff ih =>
    have hsplit : ys.take (off + w) = ys.take off ++ slice ys off w := List.take_add
    rw [hsplit]
    exact (ih.trans (List.take_sublist_take_left hoff)).append (List.Sublist.refl _)

/-- A longer list has the same blocks. -/
theorem Blocks.append_right {ys xs : List α} {n e : ℕ} (hb : Blocks ys n e xs)
    (he : e ≤ ys.length) (zs : List α) : Blocks (ys ++ zs) n e xs := by
  induction hb with
  | nil => exact .nil
  | @snoc n e off xs _ w hoff ih =>
    have hslice : slice (ys ++ zs) off w = slice ys off w := by
      rw [slice, slice, List.drop_append_of_le_length (by omega), List.take_append_of_le_length]
      rw [List.length_drop]
      omega
    rw [← hslice]
    exact .snoc (ih (by omega)) w hoff

end Mms.Lib
