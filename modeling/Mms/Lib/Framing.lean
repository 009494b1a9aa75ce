import Mathlib.Data.List.Forall2
import Mms.Lib.Fields

/-!
# Records of a fixed size in a stream that arrives in chunks

A sender writes records of `w` elements each, one after the other; the receiver gets the stream in
chunks of any lengths and takes every chunk of exactly `w` elements for a record. `frames w pos cs`
are these chunks, with the position in the stream at which each starts.

* `FromRecord w rs k f`: every position of the frame `f` belongs to record `k`, whose content it is.
* `frames_from_records_iff`: the frames are records of the sender, in order and each at most once,
  iff every chunk of `w` elements starts at the beginning of a record (`Aligned`).
-/

namespace Mms.Lib

variable {α : Type*} {w pos : ℕ} {cs rs : List (List α)}

/-- A chunk that is taken for a record: where in the stream it starts, and what it holds. -/
structure Frame (α : Type*) where
  start : ℕ
  bytes : List α

/-- The chunks of exactly `w` elements, when the first chunk starts at `pos`. -/
def frames (w : ℕ) : ℕ → List (List α) → List (Frame α)
  | _, [] => []
  | pos, c :: cs =>
    if c.length = w then ⟨pos, c⟩ :: frames w (pos + c.length) cs
    else frames w (pos + c.length) cs

/-- Every chunk of `w` elements starts where a record starts. -/
def Aligned (w : ℕ) (cs : List (List α)) : Prop :=
  ∀ pre c post, cs = pre ++ c :: post → c.length = w → w ∣ pre.flatten.length

/-- The frame is record `k`: by the positions it covers, and by its content. -/
structure FromRecord (w : ℕ) (rs : List (List α)) (k : ℕ) (f : Frame α) : Prop where
  owner : ∀ i < w, (f.start + i) / w = k
  content : rs[k]? = some f.bytes

/-! ## Frames -/

theorem mem_frames {f : Frame α} : f ∈ frames w pos cs ↔
    ∃ pre c post, cs = pre ++ c :: post ∧ c.length = w ∧ f = ⟨pos + pre.flatten.length, c⟩ := by
  induction cs generalizing pos with
  | nil => simp [frames]
  | cons c cs ih =>
    have hmem : f ∈ frames w pos (c :: cs) ↔
        (c.length = w ∧ f = ⟨pos, c⟩) ∨ f ∈ frames w (pos + c.length) cs := by
      rw [frames]
      split
      · rename_i hc
        simp [hc]
      · rename_i hc
        simp [hc]
    rw [hmem, ih]
    constructor
    · rintro (⟨hc, rfl⟩ | ⟨pre, c', post, rfl, hc, rfl⟩)
      · exact ⟨[], c, cs, rfl, hc, rfl⟩
      · refine ⟨c :: pre, c', post, rfl, hc, ?_⟩
        rw [List.flatten_cons, List.length_append, Nat.add_assoc]
    · rintro ⟨pre, c', post, he, hc, rfl⟩
      cases pre with
      | nil =>
        obtain ⟨rfl, -⟩ := List.cons.inj he
        exact Or.inl ⟨hc, rfl⟩
      | cons d pre =>
        obtain ⟨rfl, htail⟩ := List.cons.inj he
        refine Or.inr ⟨pre, c', post, htail, hc, ?_⟩
        rw [List.flatten_cons, List.length_append, Nat.add_assoc]

/-- Frames follow one another in the stream. -/
theorem pairwise_frames : (frames w pos cs).Pairwise fun f g => f.start + w ≤ g.start := by
  induction cs generalizing pos with
  | nil => exact List.Pairwise.nil
  | cons c cs ih =>
    rw [frames]
    split
    · rename_i hc
      refine List.pairwise_cons.mpr ⟨fun g hg => ?_, ih⟩
      obtain ⟨pre, c', post, -, -, rfl⟩ := mem_frames.mp hg
      rw [← hc]
      exact Nat.le_add_right _ _
    · exact ih

/-- The contents of the frames are the chunks of the right length. -/
theorem map_bytes_frames (w pos : ℕ) (cs : List (List α)) :
    (frames w pos cs).map Frame.bytes = cs.filter fun c => c.length = w := by
  induction cs generalizing pos with
  | nil => rfl
  | cons c cs ih =>
    rw [frames]
    split
    · rename_i hc
      rw [List.map_cons, ih, List.filter_cons_of_pos (by simpa using hc)]
    · rename_i hc
      rw [ih, List.filter_cons_of_neg (by simpa using hc)]

/-! ## Records -/

theorem length_flatten_records (hr : ∀ r ∈ rs, r.length = w) :
    rs.flatten.length = rs.length * w := by
  rw [List.length_flatten, List.map_congr_left hr, List.map_const', List.sum_replicate_nat]

/-- Record `k` is what the stream holds from position `k * w` on. -/
theorem slice_records (hr : ∀ r ∈ rs, r.length = w) {k : ℕ} (hk : k < rs.length) :
    slice rs.flatten (k * w) w = rs[k] := by
  induction rs generalizing k with
  | nil => exact absurd hk (Nat.not_lt_zero k)
  | cons r rs ih =>
    have hlen : r.length = w := hr r List.mem_cons_self
    cases k with
    | zero =>
      rw [slice, Nat.zero_mul, List.drop_zero, List.flatten_cons, ← hlen, List.take_left]
      rfl
    | succ k =>
      have hdrop : (r ++ rs.flatten).drop ((k + 1) * w) = rs.flatten.drop (k * w) := by
        rw [Nat.add_mul, Nat.one_mul, Nat.add_comm, ← List.drop_drop, ← hlen, List.drop_left]
      have hrest := ih (fun r hr' => hr r (List.mem_cons_of_mem _ hr')) (Nat.lt_of_succ_lt_succ hk)
      rw [slice, List.flatten_cons, hdrop]
      exact hrest

/-- So do the `w` elements from there on when an incomplete record follows the whole ones. -/
theorem record_of_slice {cut : List α} (hr : ∀ r ∈ rs, r.length = w) (hcut : cut.length < w)
    {k n : ℕ} (hn : n ≤ w) (hw : (slice (rs.flatten ++ cut) (k * w) n).length = w) :
    rs[k]? = some (slice (rs.flatten ++ cut) (k * w) n) := by
  have htotal : (rs.flatten ++ cut).length = rs.length * w + cut.length := by
    rw [List.length_append, length_flatten_records hr]
  have hlen := hw
  rw [slice, List.length_take, List.length_drop, htotal] at hlen
  obtain rfl : n = w := by omega
  -- the slice ends before the incomplete record does
  have hlt : k < rs.length := by
    by_contra hge
    have hle := Nat.mul_le_mul_right n (Nat.le_of_not_lt hge)
    omega
  have hend := Nat.mul_le_mul_right n (Nat.succ_le_of_lt hlt)
  rw [Nat.succ_mul] at hend
  have hflat := length_flatten_records hr
  have hwhole : slice (rs.flatten ++ cut) (k * n) n = slice rs.flatten (k * n) n := by
    rw [slice, slice, List.drop_append_of_le_length (by omega), List.take_append_of_le_length]
    rw [List.length_drop]
    omega
  rw [hwhole, slice_records hr hlt, List.getElem?_eq_getElem hlt]

/-- A chunk of `w` elements that starts where record `k` starts is that record. -/
theorem record_of_aligned (hr : ∀ r ∈ rs, r.length = w) {pre post : List (List α)} {c : List α}
    (hw : 0 < w) (hs : (pre ++ c :: post).flatten <+: rs.flatten) (hc : c.length = w) {k : ℕ}
    (hk : pre.flatten.length = k * w) : rs[k]? = some c := by
  obtain ⟨t, ht⟩ := hs
  have hstream : rs.flatten = pre.flatten ++ (c ++ (post.flatten ++ t)) := by
    rw [← ht, List.flatten_append, List.flatten_cons, List.append_assoc, List.append_assoc]
  have hlt : k < rs.length := by
    have hlen := congrArg List.length hstream
    rw [length_flatten_records hr, List.length_append, List.length_append, hk, hc] at hlen
    have hle : (k + 1) * w ≤ rs.length * w := by
      rw [hlen, Nat.add_mul, Nat.one_mul]
      omega
    exact Nat.le_of_mul_le_mul_right hle hw
  have hslice : slice rs.flatten (k * w) w = c := by
    rw [slice, hstream, ← hk, List.drop_left, ← hc, List.take_left]
  rw [List.getElem?_eq_getElem hlt, ← slice_records hr hlt, hslice]

/-- **When chunks are records.** For records of `w` elements, and chunks that make up a prefix of
their stream: the chunks of `w` elements are records, in order and each at most once, and none of
them covers positions of two records, iff every such chunk starts where a record starts. -/
theorem frames_from_records_iff (hw : 0 < w) (hr : ∀ r ∈ rs, r.length = w)
    (hs : cs.flatten <+: rs.flatten) :
    (∃ ks : List ℕ, ks.Pairwise (· < ·) ∧ List.Forall₂ (FromRecord w rs) ks (frames w 0 cs)) ↔
      Aligned w cs := by
  constructor
  · rintro ⟨ks, -, hf⟩ pre c post he hc
    have hmem : (⟨pre.flatten.length, c⟩ : Frame α) ∈ frames w 0 cs :=
      mem_frames.mpr ⟨pre, c, post, he, hc, by rw [Nat.zero_add]⟩
    obtain ⟨i, hi⟩ := List.mem_iff_getElem?.mp hmem
    obtain ⟨hlen, hget⟩ := List.forall₂_iff_get.mp hf
    obtain ⟨hi', hgi⟩ := List.getElem?_eq_some_iff.mp hi
    have hown := (hget i (by omega) hi').owner
    rw [List.get_eq_getElem, List.get_eq_getElem, hgi] at hown
    -- the first and the last position of the frame are of the same record
    have h0 := hown 0 hw
    have hlast := hown (w - 1) (by omega)
    simp only [Nat.add_zero] at h0 hlast
    rw [← h0] at hlast
    rw [Nat.dvd_iff_mod_eq_zero]
    by_contra hmod
    have hdiv := Nat.div_add_mod pre.flatten.length w
    have hge : pre.flatten.length / w + 1 ≤ (pre.flatten.length + (w - 1)) / w := by
      rw [Nat.le_div_iff_mul_le hw, Nat.add_mul, Nat.one_mul, Nat.mul_comm]
      omega
    omega
  · intro ha
    have hrec : ∀ f ∈ frames w 0 cs, FromRecord w rs (f.start / w) f ∧ w ∣ f.start := by
      intro f hf
      obtain ⟨pre, c, post, rfl, hc, rfl⟩ := mem_frames.mp hf
      obtain ⟨k, hk⟩ := ha pre c post rfl hc
      simp only [Nat.zero_add]
      have hdiv : pre.flatten.length / w = k := by
        rw [hk]
        exact Nat.mul_div_cancel_left k hw
      refine ⟨⟨fun i hi => ?_, ?_⟩, k, hk⟩
      · rw [hdiv, hk, Nat.mul_add_div hw, Nat.div_eq_of_lt hi, Nat.add_zero]
      · rw [hdiv]
        exact record_of_aligned hr hw hs hc (by rw [hk, Nat.mul_comm])
    refine ⟨(frames w 0 cs).map fun f => f.start / w, ?_, ?_⟩
    · rw [List.pairwise_map]
      refine pairwise_frames.imp fun {f g} hfg => ?_
      have hlt : (f.start + w) / w ≤ g.start / w := Nat.div_le_div_right hfg
      rw [Nat.add_div_right _ hw] at hlt
      exact hlt
    · rw [List.forall₂_map_left_iff, List.forall₂_same]
      exact fun f hf => (hrec f hf).1

end Mms.Lib
