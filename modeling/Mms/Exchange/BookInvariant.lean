import Mms.Exchange.Matching
import Mms.Lib.Transition

/-!
# The book invariant and what one call does under it

`Inv b` is the representation invariant of `OptionOrderBook`: the index agrees with the containers,
both containers are sorted by rank, every resting order is valid, on its own side and trades with no
order of the other side, and no container holds more than `SIZE` orders.

`Sound pending b` is what of it holds in the middle of a match, while the orders of the ids
`pending` are still to be removed. `Sound.scanned`, `Sound.without` and `Sound.put` say what the
three things that happen to a book do to it: a scan, the removal of ids, an order that comes to
rest.

Of a sound book with nothing pending one call is described without a loop:
* `tryMatch_eq`: `try_match` sweeps the opposite container and erases the ids taken whole;
* `add_outcome`: the exits of `add`, as the four cases of `AddOutcome`.
Under `Inv` both leave a book that satisfies it again (`afterMatch_inv`, `AddOutcome.inv`), and so
does every run of calls (`reachable_inv`).
-/

namespace Mms

open Lib

namespace OptionOrderBook

variable {SIZE : ℕ} {σ : Type}

/-- **The representation invariant.** -/
structure Inv (b : OptionOrderBook SIZE) : Prop extends Indexed b where
  sorted : ∀ s, (b.getContainer s).Pairwise (Order.Ranks s)
  side : ∀ s, ∀ x ∈ b.getContainer s, x.side = s
  uncrossed : ∀ s, ∀ x ∈ b.getContainer s, ∀ y ∈ b.getContainer s.opp,
    Order.tradeable s x.price y = false
  valid : ∀ s, ∀ x ∈ b.getContainer s, x.isValid = true
  size : ∀ s, (b.getContainer s).length ≤ SIZE

theorem inv_empty : Inv (empty : OptionOrderBook SIZE) where
  toIndexed := indexed_empty
  sorted s := by simp
  side s := by simp
  uncrossed s := by simp
  valid s := by simp
  size s := by simp

/-- The invariant less the crossing, in the middle of a match: a resting order has no units left
only while its id is `pending`, still to be removed. -/
structure Sound (pending : List UInt32) (b : OptionOrderBook SIZE) : Prop extends Indexed b where
  sorted : ∀ s, (b.getContainer s).Pairwise (Order.Ranks s)
  side : ∀ s, ∀ x ∈ b.getContainer s, x.side = s
  price : ∀ s, ∀ x ∈ b.getContainer s, x.price.isValid = true
  units : ∀ s, ∀ x ∈ b.getContainer s, 0 < x.qty.toNat ∨ x.id ∈ pending
  size : ∀ s, (b.getContainer s).length ≤ SIZE

theorem Inv.sound {b : OptionOrderBook SIZE} (h : Inv b) : Sound [] b :=
  { toIndexed := h.toIndexed
    sorted := h.sorted
    side := h.side
    price := fun s x hx => (Order.isValid_iff.mp (h.valid s x hx)).1
    units := fun s x hx => Or.inl (Order.isValid_iff.mp (h.valid s x hx)).2
    size := h.size }

theorem Sound.qty_pos {b : OptionOrderBook SIZE} (h : Sound [] b) {s : Side} :
    ∀ x ∈ b.getContainer s, 0 < x.qty.toNat :=
  fun x hx => (h.units s x hx).resolve_right List.not_mem_nil

/-- The orders an aggressor trades with stand at the front of the opposite container. -/
theorem Sound.front {b : OptionOrderBook SIZE} {pending : List UInt32} (h : Sound pending b)
    (s : Side) (p : Price32) : Front (Order.tradeable s p) (b.getContainer s.opp) :=
  Order.front_tradeable (h.sorted s.opp)

/-- Nothing pending and no crossed prices: the invariant. -/
theorem Sound.inv {b : OptionOrderBook SIZE} (h : Sound [] b)
    (hu : ∀ s, ∀ x ∈ b.getContainer s, ∀ y ∈ b.getContainer s.opp,
      Order.tradeable s x.price y = false) : Inv b :=
  { toIndexed := h.toIndexed
    sorted := h.sorted
    side := h.side
    uncrossed := hu
    valid := fun s x hx => Order.isValid_iff.mpr ⟨h.price s x hx, h.qty_pos x hx⟩
    size := h.size }

theorem Inv.qty_pos {b : OptionOrderBook SIZE} (h : Inv b) {s : Side} :
    ∀ x ∈ b.getContainer s, 0 < x.qty.toNat := h.sound.qty_pos

theorem Inv.front {b : OptionOrderBook SIZE} (h : Inv b) (s : Side) (p : Price32) :
    Front (Order.tradeable s p) (b.getContainer s.opp) := h.sound.front s p

/-- Every bid is below every ask. -/
theorem Inv.bid_lt_ask {b : OptionOrderBook SIZE} (h : Inv b) {x y : Order} (hx : x ∈ b.bids)
    (hy : y ∈ b.asks) : x.price < y.price := by
  have ht := h.uncrossed .bid x hx y hy
  rw [Bool.eq_false_iff, Ne, Order.tradeable_iff] at ht
  exact not_le.mp ht

/-! ## `remove` -/

theorem mem_without {b : OptionOrderBook SIZE} {ids : List UInt32} {s : Side} {x : Order} :
    x ∈ (b.without ids).getContainer s ↔ x ∈ b.getContainer s ∧ x.id ∉ ids := by
  rw [getContainer_without, List.mem_filter]
  simp

/-- Taking orders out keeps a book sound, and settles the ids taken out. -/
theorem Sound.without {b : OptionOrderBook SIZE} {pending pending' ids : List UInt32}
    (h : Sound pending b) (hp : ∀ id ∈ pending, id ∈ ids ∨ id ∈ pending') :
    Sound pending' (b.without ids) := by
  have hsub : ∀ s, ((b.without ids).getContainer s).Sublist (b.getContainer s) := fun s => by
    rw [getContainer_without]
    exact List.filter_sublist
  refine ⟨h.toIndexed.without ids, fun s => (h.sorted s).sublist (hsub s),
    fun s x hx => h.side s x ((hsub s).mem hx), fun s x hx => h.price s x ((hsub s).mem hx),
    fun s x hx => ?_, fun s => (hsub s).length_le.trans (h.size s)⟩
  obtain ⟨hmem, hid⟩ := mem_without.mp hx
  exact (h.units s x hmem).imp_right fun hin => (hp x.id hin).resolve_left hid

theorem without_inv {b : OptionOrderBook SIZE} (h : Inv b) (ids : List UInt32) :
    Inv (b.without ids) :=
  (h.sound.without fun _ hid => absurd hid List.not_mem_nil).inv fun s x hx y hy =>
    h.uncrossed s x (mem_without.mp hx).1 y (mem_without.mp hy).1

/-! ## Coming to rest -/

/-- The book with `o` at rest. -/
def put (b : OptionOrderBook SIZE) (o : Order) : OptionOrderBook SIZE :=
  { b.setContainer o.side ((b.getContainer o.side).orderedInsert (Order.Ranks o.side) o) with
    orderIdsToSide := b.orderIdsToSide.insert o.id o.side }

@[simp] theorem put_own (b : OptionOrderBook SIZE) (o : Order) :
    (b.put o).getContainer o.side =
      (b.getContainer o.side).orderedInsert (Order.Ranks o.side) o := by
  rw [put, getContainer_index, getContainer_set]

@[simp] theorem put_opp (b : OptionOrderBook SIZE) (o : Order) :
    (b.put o).getContainer o.side.opp = b.getContainer o.side.opp := by
  rw [put, getContainer_index, getContainer_set_of_opp]

theorem put_index (b : OptionOrderBook SIZE) (o : Order) :
    (b.put o).orderIdsToSide = b.orderIdsToSide.insert o.id o.side := rfl

theorem mem_put {b : OptionOrderBook SIZE} {o x : Order} {s : Side} :
    x ∈ (b.put o).getContainer s ↔ (s = o.side ∧ x = o) ∨ x ∈ b.getContainer s := by
  rcases o.side.eq_or_eq_opp s with rfl | rfl
  · rw [put_own, List.mem_orderedInsert]
    simp
  · rw [put_opp]
    simp [o.side.opp_ne]

theorem Indexed.put {b : OptionOrderBook SIZE} (h : Indexed b) {o : Order}
    (hid : b.has o.id = false) : Indexed (b.put o) := by
  refine ⟨fun s => ?_, fun id s => ?_⟩
  · rcases o.side.eq_or_eq_opp s with rfl | rfl
    · rw [put_own]
      refine ((List.perm_orderedInsert _ _ _).map _).nodup_iff.mpr ?_
      rw [List.map_cons, List.nodup_cons]
      refine ⟨fun hin => ?_, h.ids _⟩
      obtain ⟨x, hx, he⟩ := List.mem_map.mp hin
      exact h.id_ne hid hx he
    · rw [put_opp]
      exact h.ids _
  · simp only [put_index, mem_put]
    by_cases hk : id = o.id
    · subst hk
      rw [Finmap.lookup_insert]
      constructor
      · intro he
        exact ⟨o, Or.inl ⟨(Option.some.inj he).symm, rfl⟩, rfl⟩
      · rintro ⟨x, ⟨rfl, -⟩ | hx, he⟩
        · rfl
        · exact absurd he (h.id_ne hid hx)
    · rw [Finmap.lookup_insert_of_ne _ hk, h.index]
      constructor
      · rintro ⟨x, hx, he⟩
        exact ⟨x, Or.inr hx, he⟩
      · rintro ⟨x, ⟨-, rfl⟩ | hx, he⟩
        · exact absurd he.symm hk
        · exact ⟨x, hx, he⟩

/-- **A valid order of a new id comes to rest** on a sound book that has room for it. -/
theorem Sound.put {b : OptionOrderBook SIZE} {pending : List UInt32} (h : Sound pending b)
    {o : Order} (hid : b.has o.id = false) (hv : o.isValid = true)
    (hs : (b.getContainer o.side).length < SIZE) : Sound pending (b.put o) := by
  obtain ⟨hprice, hqty⟩ := Order.isValid_iff.mp hv
  refine ⟨h.toIndexed.put hid, fun s => ?_, fun s x hx => ?_, fun s x hx => ?_, fun s x hx => ?_,
    fun s => ?_⟩
  · rcases o.side.eq_or_eq_opp s with rfl | rfl
    · rw [put_own]
      exact (h.sorted o.side).orderedInsert _ _
    · rw [put_opp]
      exact h.sorted _
  · rcases mem_put.mp hx with ⟨rfl, rfl⟩ | hx
    · rfl
    · exact h.side s x hx
  · rcases mem_put.mp hx with ⟨rfl, rfl⟩ | hx
    · exact hprice
    · exact h.price s x hx
  · rcases mem_put.mp hx with ⟨rfl, rfl⟩ | hx
    · exact Or.inl hqty
    · exact h.units s x hx
  · rcases o.side.eq_or_eq_opp s with rfl | rfl
    · rw [put_own, List.orderedInsert_length]
      omega
    · rw [put_opp]
      exact h.size _

/-! ## `try_match` -/

/-- The sweep of the opposite container by `o`. -/
def swept (b : OptionOrderBook SIZE) (o : Order) : Sweep Order :=
  sweep (Order.tradeable o.side o.price) o.qty.toNat (b.getContainer o.side.opp)

/-- The ids of the orders `o` takes whole, best price first. -/
def filledIds (b : OptionOrderBook SIZE) (o : Order) : List UInt32 :=
  (b.swept o).filled.map Order.id

/-- The book after the loop of `try_match`, before the collected ids are removed. -/
def scanned (b : OptionOrderBook SIZE) (o : Order) : OptionOrderBook SIZE :=
  b.setContainer o.side.opp (scan o (b.getContainer o.side.opp)).container

/-- The book `try_match` leaves. -/
def afterMatch (b : OptionOrderBook SIZE) (o : Order) : OptionOrderBook SIZE :=
  { b.setContainer o.side.opp (b.swept o).rest with
    orderIdsToSide := eraseAll b.orderIdsToSide (b.filledIds o) }

/-- `o` with the units the sweep could not match. -/
def remainder (b : OptionOrderBook SIZE) (o : Order) : Order :=
  { o with qty := UInt32.ofNat (b.swept o).left }

@[simp] theorem afterMatch_opp (b : OptionOrderBook SIZE) (o : Order) :
    (b.afterMatch o).getContainer o.side.opp = (b.swept o).rest := by
  rw [afterMatch, getContainer_index, getContainer_set]

@[simp] theorem afterMatch_own (b : OptionOrderBook SIZE) (o : Order) :
    (b.afterMatch o).getContainer o.side = b.getContainer o.side := by
  rw [afterMatch, getContainer_index, getContainer_set_opp]

theorem swept_left_le (b : OptionOrderBook SIZE) (o : Order) :
    (b.swept o).left ≤ o.qty.toNat := sweep_left_le _ _ _

theorem remainder_qty (b : OptionOrderBook SIZE) (o : Order) :
    (b.remainder o).qty.toNat = (b.swept o).left :=
  UInt32.toNat_ofNat_of_lt' (Nat.lt_of_le_of_lt (b.swept_left_le o) o.qty.toNat_lt)

/-- The ids of the opposite container are those taken whole and those that stay. -/
theorem swept_ids (b : OptionOrderBook SIZE) (o : Order) :
    b.filledIds o ++ (b.swept o).rest.map Order.id =
      (b.getContainer o.side.opp).map Order.id :=
  sweep_map (f := Order.id) Order.reduce_id _ _ _

/-- An aggressor nothing trades with leaves the book alone. -/
theorem swept_none {b : OptionOrderBook SIZE} {o : Order}
    (hn : ∀ x ∈ b.getContainer o.side.opp, Order.tradeable o.side o.price x = false) :
    b.swept o = ⟨[], b.getContainer o.side.opp, o.qty.toNat⟩ := sweep_none hn

theorem afterMatch_none {b : OptionOrderBook SIZE} {o : Order}
    (hn : ∀ x ∈ b.getContainer o.side.opp, Order.tradeable o.side o.price x = false) :
    b.afterMatch o = b := by
  refine ext_containers (fun s => ?_) ?_
  · rcases o.side.eq_or_eq_opp s with rfl | rfl
    · exact afterMatch_own b o
    · rw [afterMatch_opp, swept_none hn]
  · unfold afterMatch filledIds
    rw [swept_none hn]
    rfl

/-- Matching takes orders out and changes quantities, nothing else. -/
theorem afterMatch_sublist {β : Type} {f : Order → β}
    (hf : ∀ (x : Order) (n : ℕ), f (Lot.reduce x n) = f x) (b : OptionOrderBook SIZE) (o : Order)
    (s : Side) :
    (((b.afterMatch o).getContainer s).map f).Sublist ((b.getContainer s).map f) := by
  rcases o.side.eq_or_eq_opp s with rfl | rfl
  · rw [afterMatch_own]
  · have hmap : (b.swept o).filled.map f ++ (b.swept o).rest.map f =
        (b.getContainer o.side.opp).map f := sweep_map hf _ _ _
    rw [afterMatch_opp, ← hmap]
    exact List.sublist_append_right _ _

/-- An order left by the match is an order of the book, up to its quantity. -/
theorem mem_afterMatch {b : OptionOrderBook SIZE} {o x : Order} {s : Side}
    (hx : x ∈ (b.afterMatch o).getContainer s) :
    ∃ y ∈ b.getContainer s, y.id = x.id ∧ y.side = x.side ∧ y.price = x.price := by
  have hsub := b.afterMatch_sublist (f := fun y : Order => (y.id, y.side, y.price))
    (fun _ _ => rfl) o s
  obtain ⟨y, hy, he⟩ := List.mem_map.mp (hsub.mem (List.mem_map.mpr ⟨x, hx, rfl⟩))
  simp only [Prod.mk.injEq] at he
  exact ⟨y, hy, he⟩

/-- The loop of `try_match` changes quantities only. -/
theorem scanned_map {β : Type} {f : Order → β} (hf : ∀ (p : Order) (n : UInt32),
    f { p with qty := n } = f p) (b : OptionOrderBook SIZE) (o : Order) (s : Side) :
    ((b.scanned o).getContainer s).map f = (b.getContainer s).map f := by
  rcases o.side.opp.eq_or_eq_opp s with rfl | rfl
  · rw [scanned, getContainer_set, scan_map hf]
  · rw [scanned, getContainer_set_of_opp]

theorem scanned_indexed {b : OptionOrderBook SIZE} (h : Indexed b) (o : Order) :
    Indexed (b.scanned o) := by
  have hmap := b.scanned_map (f := Order.id) (fun _ _ => rfl) o
  refine ⟨fun s => ?_, fun id s => ?_⟩
  · rw [hmap]
    exact h.ids s
  · have hmem := congrArg (fun l => id ∈ l) (hmap s)
    simp only [List.mem_map, eq_iff_iff] at hmem
    rw [scanned, setContainer_index, h.index, ← scanned]
    exact hmem.symm

/-- **After the loop of `try_match`** the ids it collected are pending too. -/
theorem Sound.scanned {b : OptionOrderBook SIZE} {pending : List UInt32} (h : Sound pending b)
    (o : Order) :
    Sound ((scan o (b.getContainer o.side.opp)).idsToRemove ++ pending) (b.scanned o) := by
  have hmem : ∀ s, ∀ x ∈ (b.scanned o).getContainer s, ∃ y ∈ b.getContainer s,
      y.side = x.side ∧ y.price = x.price := by
    intro s x hx
    have hmap := b.scanned_map (f := fun y : Order => (y.side, y.price)) (fun _ _ => rfl) o s
    obtain ⟨y, hy, he⟩ := List.mem_map.mp (hmap ▸ List.mem_map_of_mem hx)
    exact ⟨y, hy, Prod.mk.inj he⟩
  refine ⟨scanned_indexed h.toIndexed o, fun s => ?_, fun s x hx => ?_, fun s x hx => ?_,
    fun s x hx => ?_, fun s => ?_⟩
  · have hsort : ((b.getContainer s).map Order.price).Pairwise s.ahead :=
      List.pairwise_map.mpr (h.sorted s)
    rw [← b.scanned_map (f := Order.price) (fun _ _ => rfl) o s] at hsort
    exact (List.pairwise_map (f := Order.price)).mp hsort
  · obtain ⟨y, hy, hs, -⟩ := hmem s x hx
    exact hs ▸ h.side s y hy
  · obtain ⟨y, hy, -, hp⟩ := hmem s x hx
    exact hp ▸ h.price s y hy
  · rw [List.mem_append]
    rcases o.side.opp.eq_or_eq_opp s with rfl | rfl
    · rw [OptionOrderBook.scanned, getContainer_set] at hx
      rcases scan_units hx with hq | hin | hold
      · exact Or.inl hq
      · exact Or.inr (Or.inl hin)
      · exact (h.units _ x hold).imp_right Or.inr
    · rw [OptionOrderBook.scanned, getContainer_set_of_opp] at hx
      exact (h.units _ x hx).imp_right Or.inr
  · have hlen := congrArg List.length (b.scanned_map (f := Order.id) (fun _ _ => rfl) o s)
    rw [List.length_map, List.length_map] at hlen
    exact hlen.trans_le (h.size s)

theorem scanned_has (b : OptionOrderBook SIZE) (o : Order) (id : UInt32) :
    (b.scanned o).has id = b.has id := by
  unfold has scanned
  rw [setContainer_index]

/-- **Removing the collected ids from the scanned book leaves the swept one.** -/
theorem scanned_without {b : OptionOrderBook SIZE} (h : Sound [] b) (o : Order) :
    (b.scanned o).without (b.filledIds o) = b.afterMatch o := by
  obtain ⟨h1, -, h3⟩ := scan_eq (a := o) (h.front o.side o.price) h.qty_pos (h.ids _)
  refine ext_containers (fun s => ?_) ?_
  · rw [getContainer_without]
    rcases o.side.eq_or_eq_opp s with rfl | rfl
    · rw [afterMatch_own, scanned, getContainer_set_opp, List.filter_eq_self]
      intro x hx
      have hno : x.id ∉ b.filledIds o := by
        intro hm
        have hopp : x.id ∈ (b.getContainer o.side.opp).map Order.id := by
          rw [← swept_ids]
          exact List.mem_append_left _ hm
        obtain ⟨y, hy, he⟩ := List.mem_map.mp hopp
        exact o.side.opp_ne (h.side_unique hy hx he)
      simpa using hno
    · rw [afterMatch_opp, scanned, getContainer_set, swept, ← h3, h1]
      rfl
  · have hm : ((b.scanned o).without (b.filledIds o)).orderIdsToSide =
        eraseAll (b.scanned o).orderIdsToSide (b.filledIds o) := rfl
    rw [hm, scanned, setContainer_index]
    rfl

/-- **`try_match` is the sweep**: its result, the aggressor it leaves, the book it leaves, and the
calls it makes. -/
theorem tryMatch_eq {b : OptionOrderBook SIZE} (h : Sound [] b) (fill : Option (Observer SIZE σ))
    (o : Order) (s : σ) :
    tryMatch (observe fill) o (b, s) =
      ⟨UInt32.ofNat (o.qty.toNat - (b.swept o).left), b.remainder o,
        (b.afterMatch o, notified fill (b.filledIds o) (b.scanned o) s)⟩ := by
  obtain ⟨h1, h2, -⟩ := scan_eq (a := o) (h.front o.side o.price) h.qty_pos (h.ids _)
  have hsub : o.qty - (b.remainder o).qty = UInt32.ofNat (o.qty.toNat - (b.swept o).left) := by
    have hle : (b.remainder o).qty ≤ o.qty := by
      rw [UInt32.le_iff_toNat_le, remainder_qty]
      exact b.swept_left_le o
    apply UInt32.toNat_inj.mp
    rw [UInt32.toNat_sub_of_le _ _ hle, remainder_qty, UInt32.toNat_ofNat_of_lt']
    exact Nat.lt_of_le_of_lt (Nat.sub_le _ _) o.qty.toNat_lt
  have hids : (scan o (b.getContainer o.side.opp)).idsToRemove = b.filledIds o := h1
  have ho : (scan o (b.getContainer o.side.opp)).aggressor = b.remainder o := h2
  have hb : b.setContainer o.side.opp (scan o (b.getContainer o.side.opp)).container =
      b.scanned o := rfl
  unfold tryMatch
  simp only [Order.oppSide_eq, hids, ho, hb, removeFilled_observe, hsub,
    removeAll_eq (scanned_indexed h.toIndexed o), scanned_without h]

/-- The consumed quantity, in exact arithmetic. -/
theorem tryMatch_consumed {b : OptionOrderBook SIZE} (h : Sound [] b)
    (fill : Option (Observer SIZE σ)) (o : Order) (s : σ) :
    (tryMatch (observe fill) o (b, s)).consumed.toNat = o.qty.toNat - (b.swept o).left := by
  rw [tryMatch_eq h]
  exact UInt32.toNat_ofNat_of_lt' (Nat.lt_of_le_of_lt (Nat.sub_le _ _) o.qty.toNat_lt)

/-- **The book a match leaves is sound.** -/
theorem Sound.afterMatch {b : OptionOrderBook SIZE} (h : Sound [] b) (o : Order) :
    Sound [] (b.afterMatch o) := by
  rw [← scanned_without h]
  refine (h.scanned o).without fun id hid => Or.inl ?_
  rwa [List.append_nil, (scan_eq (h.front o.side o.price) h.qty_pos (h.ids _)).1] at hid

/-- The ids at rest after a match: those before it that were not taken whole. -/
theorem afterMatch_has {b : OptionOrderBook SIZE} (h : Sound [] b) (o : Order) (id : UInt32) :
    (b.afterMatch o).has id = (b.has id && !(b.filledIds o).contains id) := by
  rw [← scanned_without h, has_without, scanned_has]

theorem afterMatch_inv {b : OptionOrderBook SIZE} (h : Inv b) (o : Order) :
    Inv (b.afterMatch o) := by
  refine (h.sound.afterMatch o).inv fun s x hx y hy => ?_
  obtain ⟨x', hx', -, -, hxp⟩ := mem_afterMatch hx
  obtain ⟨y', hy', -, -, hyp⟩ := mem_afterMatch hy
  have := h.uncrossed s x' hx' y' hy'
  unfold Order.tradeable at this ⊢
  rwa [hxp, hyp] at this

/-! ## `add` -/

/-- The book with the remainder of `o` at rest. -/
def rested (b : OptionOrderBook SIZE) (o : Order) : OptionOrderBook SIZE :=
  { (b.afterMatch o).setContainer o.side
      ((b.getContainer o.side).orderedInsert (Order.Ranks o.side) (b.remainder o)) with
    orderIdsToSide := (b.afterMatch o).orderIdsToSide.insert o.id o.side }

/-- The ways `add o` can leave the book `b`: what it returns, the book it leaves, and the ids it
notifies. -/
inductive AddOutcome (b : OptionOrderBook SIZE) (o : Order) :
    Bool → OptionOrderBook SIZE → List UInt32 → Prop
  | invalid (hv : o.isValid = false) : AddOutcome b o false b []
  | filled (hv : o.isValid = true) (hl : (b.swept o).left = 0) :
      AddOutcome b o false (b.afterMatch o) (b.filledIds o)
  | rejected (hv : o.isValid = true) (hl : 0 < (b.swept o).left)
      (hr : (b.afterMatch o).has o.id = true ∨ (b.getContainer o.side).length = SIZE) :
      AddOutcome b o false (b.afterMatch o) (b.filledIds o)
  | rested (hv : o.isValid = true) (hl : 0 < (b.swept o).left)
      (hid : (b.afterMatch o).has o.id = false) (hs : (b.getContainer o.side).length < SIZE) :
      AddOutcome b o true (b.rested o) (b.filledIds o)

@[simp] theorem rested_own (b : OptionOrderBook SIZE) (o : Order) :
    (b.rested o).getContainer o.side =
      (b.getContainer o.side).orderedInsert (Order.Ranks o.side) (b.remainder o) := by
  rw [rested, getContainer_index, getContainer_set]

@[simp] theorem rested_opp (b : OptionOrderBook SIZE) (o : Order) :
    (b.rested o).getContainer o.side.opp = (b.swept o).rest := by
  rw [rested, getContainer_index, getContainer_set_of_opp, afterMatch_opp]

theorem rested_index (b : OptionOrderBook SIZE) (o : Order) :
    (b.rested o).orderIdsToSide = (b.afterMatch o).orderIdsToSide.insert o.id o.side := rfl

theorem rested_eq (b : OptionOrderBook SIZE) (o : Order) :
    b.rested o = (b.afterMatch o).put (b.remainder o) := by
  have hown : (b.afterMatch o).getContainer (b.remainder o).side = b.getContainer o.side :=
    afterMatch_own b o
  unfold rested put
  rw [hown]
  rfl

/-- **`add` has the four outcomes of `AddOutcome`.** -/
theorem add_outcome {b : OptionOrderBook SIZE} (h : Sound [] b)
    (fill : Option (Observer SIZE σ)) (o : Order) (s : σ) : ∃ r b' ids, AddOutcome b o r b' ids ∧
      add (observe fill) o (b, s) = (r, b', notified fill ids (b.scanned o) s) := by
  unfold add
  cases hv : o.isValid with
  | false => exact ⟨false, b, [], .invalid hv, rfl⟩
  | true =>
    have hfull : (UInt32.ofNat (o.qty.toNat - (b.swept o).left) == o.qty) =
        decide ((b.swept o).left = 0) := by
      have hq := tryMatch_consumed h fill o s
      rw [tryMatch_eq h] at hq
      have hle := b.swept_left_le o
      have hpos := (Order.isValid_iff.mp hv).2
      rw [Bool.eq_iff_iff, beq_iff_eq, decide_eq_true_eq, ← UInt32.toNat_inj]
      simp only at hq
      omega
    simp only [Bool.not_true, Bool.false_eq_true, if_false, tryMatch_eq h, hfull, decide_eq_true_eq]
    by_cases hl : (b.swept o).left = 0
    · rw [if_pos hl]
      exact ⟨_, _, _, .filled hv hl, rfl⟩
    · rw [if_neg hl]
      have hl' : 0 < (b.swept o).left := Nat.pos_of_ne_zero hl
      have hid : (b.remainder o).id = o.id := rfl
      have hside : (b.remainder o).side = o.side := rfl
      unfold tryEmplace
      by_cases hm : o.id ∈ (b.afterMatch o).orderIdsToSide
      · rw [hid, if_pos hm]
        refine ⟨_, _, _, .rejected hv hl' (Or.inl ?_), rfl⟩
        rw [has, decide_eq_true_eq]
        exact hm
      · rw [hid, if_neg hm, hside]
        simp only [Bool.not_true, Bool.false_eq_true, if_false, getContainer_index, afterMatch_own,
          beq_iff_eq]
        have hnone := Finmap.lookup_eq_none.mpr hm
        by_cases hs : (b.getContainer o.side).length = SIZE
        · rw [if_pos hs, erase_insert_of_notMem hnone]
          exact ⟨_, _, _, .rejected hv hl' (Or.inr hs), rfl⟩
        · rw [if_neg hs]
          have hlt : (b.getContainer o.side).length < SIZE :=
            Nat.lt_of_le_of_ne (h.size o.side) hs
          refine ⟨_, _, _, .rested hv hl' (has_eq_false_iff.mpr hnone) hlt, ?_⟩
          have hfind : ∀ x : Order, sortFn (b.remainder o) (b.remainder o).isBid x.price =
              decide (Order.Ranks o.side (b.remainder o) x) := sortFn_eq (b.remainder o)
          simp only [hfind, insertIdx_findIdx, rested]
          cases o.side <;> rfl

/-- A valid order of a new id for which there is room rests iff some of it found no match. -/
theorem add_room {b : OptionOrderBook SIZE} (h : Sound [] b) (fill : Option (Observer SIZE σ))
    {o : Order} (s : σ) (hv : o.isValid = true) (hid : b.has o.id = false)
    (hs : (b.getContainer o.side).length < SIZE) :
    add (observe fill) o (b, s) =
      (decide (0 < (b.swept o).left), if 0 < (b.swept o).left then b.rested o else b.afterMatch o,
        notified fill (b.filledIds o) (b.scanned o) s) := by
  obtain ⟨r, b', ids, ho, he⟩ := add_outcome h fill o s
  rw [he]
  cases ho with
  | invalid hv' => exact absurd (hv.symm.trans hv') (by simp)
  | filled _ hl => simp [hl]
  | rejected _ hl hr =>
    rcases hr with hr | hr
    · rw [afterMatch_has h, hid] at hr
      exact absurd hr (by simp)
    · omega
  | rested _ hl _ _ => simp [hl]

/-- An order that trades with nothing and for which there is no room changes nothing. -/
theorem add_full {b : OptionOrderBook SIZE} (h : Sound [] b) (fill : Option (Observer SIZE σ))
    {o : Order} (s : σ)
    (hn : ∀ x ∈ b.getContainer o.side.opp, Order.tradeable o.side o.price x = false)
    (hs : (b.getContainer o.side).length = SIZE) : add (observe fill) o (b, s) = (false, b, s) := by
  obtain ⟨r, b', ids, ho, he⟩ := add_outcome h fill o s
  have hids : b.filledIds o = [] := by
    unfold filledIds
    rw [swept_none hn]
    rfl
  rw [he]
  cases ho with
  | invalid _ => rfl
  | filled _ _ =>
    rw [afterMatch_none hn, hids]
    rfl
  | rejected _ _ _ =>
    rw [afterMatch_none hn, hids]
    rfl
  | rested _ _ _ hlt => exact absurd hs (Nat.ne_of_lt hlt)

/-- The orders at rest afterwards: those the match left, and the remainder of `o`. -/
theorem mem_rested {b : OptionOrderBook SIZE} {o x : Order} {s : Side} :
    x ∈ (b.rested o).getContainer s ↔
      (s = o.side ∧ x = b.remainder o) ∨ x ∈ (b.afterMatch o).getContainer s := by
  rw [rested_eq]
  exact mem_put

/-- What the match left of the opposite container does not trade with the remainder. -/
theorem untradeable_afterMatch {b : OptionOrderBook SIZE} (h : Inv b) {o : Order}
    (hl : 0 < (b.swept o).left) : ∀ y ∈ (b.afterMatch o).getContainer o.side.opp,
      Order.tradeable o.side o.price y = false := by
  intro y hy
  rw [afterMatch_opp, swept, (sweep_rest_of_left_pos (h.front _ _) hl).2, List.mem_filter] at hy
  simpa using hy.2

/-- The remainder of `o` rests on a book it no longer trades with. -/
theorem rested_inv {b : OptionOrderBook SIZE} (h : Inv b) {o : Order} (hv : o.isValid = true)
    (hl : 0 < (b.swept o).left) (hid : (b.afterMatch o).has o.id = false)
    (hs : (b.getContainer o.side).length < SIZE) : Inv (b.rested o) := by
  have hm := afterMatch_inv h o
  have hsound : Sound [] (b.rested o) := by
    rw [rested_eq]
    refine hm.sound.put hid (Order.isValid_iff.mpr ⟨(Order.isValid_iff.mp hv).1, ?_⟩) ?_
    · rw [remainder_qty]
      exact hl
    · have hown := afterMatch_own b o
      exact hown ▸ hs
  refine hsound.inv fun s x hx y hy => ?_
  -- only one of the two orders can be the new one
  rcases mem_rested.mp hx with ⟨hso, rfl⟩ | hx <;> rcases mem_rested.mp hy with ⟨hto, rfl⟩ | hy
  · exact absurd (hto.trans hso.symm) s.opp_ne
  · subst hso
    exact untradeable_afterMatch h hl y hy
  · rw [Order.tradeable_comm, hto]
    rw [← s.opp_opp, hto] at hx
    exact untradeable_afterMatch h hl x hx
  · exact hm.uncrossed s x hx y hy

/-- Every outcome of `add` keeps the invariant. -/
theorem AddOutcome.inv {b b' : OptionOrderBook SIZE} {o : Order} {r : Bool} {ids : List UInt32}
    (h : Inv b) (ho : AddOutcome b o r b' ids) : Inv b' := by
  cases ho with
  | invalid hv => exact h
  | filled hv hl => exact afterMatch_inv h o
  | rejected hv hl hr => exact afterMatch_inv h o
  | rested hv hl hid hs => exact rested_inv h hv hl hid hs

/-- An order has one outcome. -/
theorem AddOutcome.unique {b c c' : OptionOrderBook SIZE} {o : Order} {r r' : Bool}
    {ids ids' : List UInt32} (h1 : AddOutcome b o r c ids) (h2 : AddOutcome b o r' c' ids') :
    r = r' ∧ c = c' ∧ ids = ids' := by
  cases h1 <;> cases h2 <;> simp_all

end OptionOrderBook

end Mms
