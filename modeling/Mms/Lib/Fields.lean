import Mathlib.Algebra.BigOperators.Group.List.Basic
import Mathlib.Data.List.SplitLengths
import Mathlib.Tactic.Ring

/-!
# Fixed-width fields of bytes

Numbers as big-endian bytes, and buffers written and read field by field at fixed offsets.

* `beNat_beBytes`, `beBytes_beNat`: `w` bytes and the numbers below `256 ^ w` are the same.
* `splice l off bs` is `l` with `bs` written over it from `off` on. Two adjacent writes are one
  (`splice_splice`), and a write over everything is what it writes (`splice_all`).
* `slice l off w` is the field of width `w` at `off`. `cut` reads fields one after another, from an
  offset on; `flatten_cut` and `cut_flatten` say that cutting and concatenating are inverse to each
  other.
-/

namespace Mms.Lib

/-! ## Big-endian numbers -/

/-- The lowest `w` bytes of `v`, the most significant one first. -/
def beBytes : ℕ → ℕ → List UInt8
  | 0, _ => []
  | w + 1, v => UInt8.ofNat (v / 256 ^ w) :: beBytes w v

/-- The number that big-endian bytes spell. -/
def beNat : List UInt8 → ℕ
  | [] => 0
  | b :: bs => b.toNat * 256 ^ bs.length + beNat bs

@[simp] theorem length_beBytes (w v : ℕ) : (beBytes w v).length = w := by
  induction w with
  | zero => rfl
  | succ w ih => rw [beBytes, List.length_cons, ih]

theorem beNat_lt (bs : List UInt8) : beNat bs < 256 ^ bs.length := by
  induction bs with
  | nil => exact Nat.one_pos
  | cons b bs ih =>
    have hb : b.toNat + 1 ≤ 256 := b.toNat_lt
    calc b.toNat * 256 ^ bs.length + beNat bs
        < b.toNat * 256 ^ bs.length + 256 ^ bs.length := Nat.add_lt_add_left ih _
      _ = (b.toNat + 1) * 256 ^ bs.length := by ring
      _ ≤ 256 * 256 ^ bs.length := Nat.mul_le_mul_right _ hb
      _ = 256 ^ (b :: bs).length := by rw [List.length_cons, Nat.pow_succ, Nat.mul_comm]

theorem beNat_append (bs cs : List UInt8) :
    beNat (bs ++ cs) = beNat bs * 256 ^ cs.length + beNat cs := by
  induction bs with
  | nil => simp [beNat]
  | cons b bs ih =>
    rw [List.cons_append, beNat, beNat, ih, List.length_append, Nat.pow_add]
    ring

/-- Written and read back, a number keeps its lowest bytes. -/
theorem beNat_beBytes_mod (w v : ℕ) : beNat (beBytes w v) = v % 256 ^ w := by
  induction w with
  | zero => simp [beBytes, beNat, Nat.mod_one]
  | succ w ih =>
    have hb : (UInt8.ofNat (v / 256 ^ w)).toNat = v / 256 ^ w % 256 := UInt8.toNat_ofNat'
    rw [beBytes, beNat, ih, hb, length_beBytes, Nat.mod_pow_succ]
    ring

theorem beNat_beBytes {w v : ℕ} (hv : v < 256 ^ w) : beNat (beBytes w v) = v := by
  rw [beNat_beBytes_mod, Nat.mod_eq_of_lt hv]

/-- Bytes that spell the same number are the same bytes. -/
theorem beNat_injective : ∀ {bs cs : List UInt8}, bs.length = cs.length → beNat bs = beNat cs →
    bs = cs
  | [], [], _, _ => rfl
  | b :: bs, c :: cs, hl, h => by
    have hl' : bs.length = cs.length := Nat.succ.inj hl
    have hb := beNat_lt bs
    have hc := beNat_lt cs
    rw [hl'] at hb
    have hpos : 0 < 256 ^ cs.length := Nat.zero_lt_of_lt hb
    rw [beNat, beNat, hl', Nat.mul_comm, Nat.mul_comm c.toNat] at h
    have hhead : b.toNat = c.toNat := by
      have hdiv := congrArg (fun n => n / 256 ^ cs.length) h
      simpa only [Nat.mul_add_div hpos, Nat.div_eq_of_lt hb, Nat.div_eq_of_lt hc, Nat.add_zero]
        using hdiv
    have htail : beNat bs = beNat cs := by
      have hmod := congrArg (fun n => n % 256 ^ cs.length) h
      simpa only [Nat.mul_add_mod, Nat.mod_eq_of_lt hb, Nat.mod_eq_of_lt hc] using hmod
    rw [UInt8.toNat_inj.mp hhead, beNat_injective hl' htail]

/-- Read and written back, bytes are the same bytes. -/
theorem beBytes_beNat (bs : List UInt8) : beBytes bs.length (beNat bs) = bs :=
  beNat_injective (length_beBytes _ _) (beNat_beBytes (beNat_lt bs))

/-- A word put together from two halves of `k` bits. -/
theorem halves_toNat {k hi lo : ℕ} (hh : hi < 2 ^ k) (hl : lo < 2 ^ k) :
    hi <<< k % 2 ^ (k + k) ||| lo = hi * 2 ^ k + lo := by
  have hlt : hi <<< k < 2 ^ (k + k) := by
    rw [Nat.shiftLeft_eq, Nat.pow_add]
    exact Nat.mul_lt_mul_of_pos_right hh (Nat.two_pow_pos k)
  rw [Nat.mod_eq_of_lt hlt, ← Nat.shiftLeft_add_eq_or_of_lt hl, Nat.shiftLeft_eq]

/-! ## Writing -/

section Splice

variable {α : Type*}

/-- `l` with `bs` written over it from `off` on. -/
def splice (l : List α) (off : ℕ) (bs : List α) : List α :=
  l.take off ++ bs ++ l.drop (off + bs.length)

theorem set_eq_splice {l : List α} {off : ℕ} (h : off < l.length) (a : α) :
    l.set off a = splice l off [a] := by
  rw [List.set_eq_take_append_cons_drop, if_pos h, splice, List.append_assoc]
  rfl

/-- What a write leaves at each position. -/
theorem getElem?_splice {l : List α} {off : ℕ} {bs : List α} (h : off + bs.length ≤ l.length)
    (i : ℕ) : (splice l off bs)[i]? =
      if off ≤ i ∧ i < off + bs.length then bs[i - off]? else l[i]? := by
  have htake : (l.take off).length = off := by
    rw [List.length_take]
    omega
  rw [splice, List.append_assoc]
  by_cases hlt : i < off
  · rw [List.getElem?_append_left (by omega), List.getElem?_take_of_lt hlt, if_neg (by omega)]
  · rw [List.getElem?_append_right (by omega), htake]
    by_cases hin : i < off + bs.length
    · rw [List.getElem?_append_left (by omega), if_pos ⟨by omega, hin⟩]
    · rw [List.getElem?_append_right (by omega), List.getElem?_drop, if_neg (by omega)]
      congr 1
      omega

/-- **Two adjacent writes are one.** -/
theorem splice_splice {l : List α} {off off' : ℕ} {bs cs : List α} (ho : off' = off + bs.length)
    (h : off' ≤ l.length) :
    splice (splice l off bs) off' cs = splice l off (bs ++ cs) := by
  subst ho
  have hlen : (l.take off ++ bs).length = off + bs.length := by
    rw [List.length_append, List.length_take]
    omega
  have htake : (splice l off bs).take (off + bs.length) = l.take off ++ bs :=
    List.take_left' hlen
  have hdrop : (splice l off bs).drop (off + bs.length + cs.length) =
      l.drop (off + (bs ++ cs).length) := by
    rw [← List.drop_drop, splice, List.drop_left' hlen, List.drop_drop, List.length_append,
      Nat.add_assoc]
  rw [splice, htake, hdrop, splice, List.append_assoc (l.take off)]

/-- `bs` written from `off` on, one element after the other. -/
def setAll : List α → ℕ → List α → List α
  | l, _, [] => l
  | l, off, b :: bs => setAll (l.set off b) (off + 1) bs

theorem setAll_eq_splice {l : List α} {off : ℕ} {bs : List α} (h : off + bs.length ≤ l.length) :
    setAll l off bs = splice l off bs := by
  induction bs generalizing l off with
  | nil => rw [setAll, splice, List.append_nil, List.length_nil, Nat.add_zero,
      List.take_append_drop]
  | cons b bs ih =>
    rw [List.length_cons] at h
    have hone : off + 1 = off + [b].length := rfl
    rw [setAll, ih (by rw [List.length_set]; omega), set_eq_splice (by omega),
      splice_splice hone (by omega), List.singleton_append]

/-- A write over everything. -/
theorem splice_all {l bs : List α} (h : bs.length = l.length) : splice l 0 bs = bs := by
  rw [splice, Nat.zero_add, h, List.drop_length, List.take_zero, List.nil_append, List.append_nil]

end Splice

/-! ## Reading -/

section Cut

variable {α : Type*}

/-- The field of width `w` at `off`. -/
def slice (l : List α) (off w : ℕ) : List α := (l.drop off).take w

theorem length_slice {l : List α} {off w : ℕ} (h : off + w ≤ l.length) :
    (slice l off w).length = w := by
  rw [slice, List.length_take, List.length_drop]
  omega

/-- Two adjacent fields are one. -/
theorem slice_append_slice (l : List α) (off w v : ℕ) :
    slice l off w ++ slice l (off + w) v = slice l off (w + v) := by
  rw [slice, slice, slice, List.take_add, List.drop_drop]

theorem slice_one {l : List α} {off : ℕ} (h : off < l.length) : slice l off 1 = [l[off]] := by
  rw [slice, List.drop_eq_getElem_cons h]
  rfl

/-- The fields of the widths `ws`, one after the other from `off` on. -/
def cut : List ℕ → ℕ → List α → List (List α)
  | [], _, _ => []
  | w :: ws, off, l => slice l off w :: cut ws (off + w) l

theorem cut_eq_splitLengths (ws : List ℕ) (off : ℕ) (l : List α) :
    cut ws off l = ws.splitLengths (l.drop off) := by
  induction ws generalizing off with
  | nil => rfl
  | cons w ws ih => rw [cut, ih, List.splitLengths_cons, List.drop_drop, slice]

/-- **Fields that cover the list concatenate to it.** -/
theorem flatten_cut {ws : List ℕ} {l : List α} (h : l.length ≤ ws.sum) :
    (cut ws 0 l).flatten = l := by
  rw [cut_eq_splitLengths, List.drop_zero]
  exact List.flatten_splitLengths _ _ h

/-- **A concatenation cuts into its fields.** -/
theorem cut_flatten (fs : List (List α)) : cut (fs.map List.length) 0 fs.flatten = fs := by
  rw [cut_eq_splitLengths, List.drop_zero]
  induction fs with
  | nil => rfl
  | cons f fs ih =>
    rw [List.map_cons, List.splitLengths_cons, List.flatten_cons, List.take_left, List.drop_left,
      ih]

end Cut

end Mms.Lib
