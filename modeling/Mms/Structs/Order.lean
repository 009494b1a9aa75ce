import Mms.Lib.Sweep
import Mms.Market.Price

/-!
# Orders (`include/mms/structs/Structs.hh`, namespace `v2`)

`Order` with its three member functions. Quantities and ids are 32-bit; `symbol`, `rcvTs` and
`flags` are carried but never read by the book.

What a side means is said once, in `Side.ahead s p q`: on side `s` a resting price `p` is at least
as good as `q` (higher on the bid side, lower on the ask side). It is a total preorder, the order
of both containers, and also the test for a trade: a resting order trades with an aggressor exactly
when its price is ahead of the aggressor's on the resting order's side (`tradeable`).
-/

namespace Mms

open Lib

/-- `Symbol`: `MAX_SYMBOL_SIZE = 6` bytes. -/
abbrev Symbol := Vector UInt8 6

/-- The symbol `SPCX` of the generators. -/
def spcx : Symbol := #v[83, 80, 67, 88, 0, 0]

/-- `Order::Side`. -/
inductive Side where
  | bid
  | ask
deriving DecidableEq, Repr

/-- `Order`. -/
structure Order where
  symbol : Symbol
  side : Side
  price : Price32
  qty : UInt32
  id : UInt32
  rcvTs : UInt64
  flags : UInt8
deriving DecidableEq, Repr

namespace Side

/-- The other side. -/
def opp : Side → Side
  | .bid => .ask
  | .ask => .bid

@[simp] theorem opp_opp (s : Side) : s.opp.opp = s := by cases s <;> rfl

theorem opp_ne (s : Side) : s.opp ≠ s := by cases s <;> decide

theorem eq_or_eq_opp (s t : Side) : t = s ∨ t = s.opp := by cases s <;> cases t <;> simp [opp]

/-- On side `s`, a resting price `p` is at least as good as `q`. -/
def ahead : Side → Price32 → Price32 → Prop
  | .bid, p, q => q ≤ p
  | .ask, p, q => p ≤ q

instance (s : Side) (p q : Price32) : Decidable (s.ahead p q) :=
  match s with
  | .bid => inferInstanceAs (Decidable (q ≤ p))
  | .ask => inferInstanceAs (Decidable (p ≤ q))

theorem ahead_refl (s : Side) (p : Price32) : s.ahead p p := by cases s <;> exact le_refl p

theorem ahead_trans {s : Side} {p q r : Price32} (h1 : s.ahead p q) (h2 : s.ahead q r) :
    s.ahead p r := by
  cases s with
  | bid => exact le_trans h2 h1
  | ask => exact le_trans h1 h2

theorem ahead_total (s : Side) (p q : Price32) : s.ahead p q ∨ s.ahead q p := by
  cases s with
  | bid => exact le_total q p
  | ask => exact le_total p q

theorem ahead_antisymm {s : Side} {p q : Price32} (h1 : s.ahead p q) (h2 : s.ahead q p) :
    p = q := by
  cases s with
  | bid => exact le_antisymm h2 h1
  | ask => exact le_antisymm h1 h2

/-- What is good for one side is bad for the other. -/
theorem ahead_opp {s : Side} {p q : Price32} : s.opp.ahead p q ↔ s.ahead q p := by
  cases s <;> exact Iff.rfl

end Side

namespace Order

/-- An order with the fields the book reads; the others are zero. -/
def limit (side : Side) (price : Int32) (qty id : UInt32) : Order :=
  ⟨Vector.replicate 6 0, side, ⟨price⟩, qty, id, 0, 0⟩

/-- `opp_side`. -/
def oppSide (o : Order) : Side := if o.side = .bid then .ask else .bid

/-- `is_valid`. -/
def isValid (o : Order) : Bool :=
  let validPrice := o.price.isValid
  let validQty := decide (o.qty > 0)
  validPrice && validQty

/-- `is_bid`. -/
def isBid (o : Order) : Bool := if o.side = .bid then true else false

@[simp] theorem oppSide_eq (o : Order) : o.oppSide = o.side.opp := by
  unfold oppSide
  cases o.side <;> rfl

theorem isValid_iff {o : Order} : o.isValid = true ↔ o.price.isValid = true ∧ 0 < o.qty.toNat := by
  simp [isValid, UInt32.lt_iff_toNat_lt]

/-- The units of an order are its quantity. -/
instance : Lot Order where
  qty o := o.qty.toNat
  reduce o n := { o with qty := UInt32.ofNat (o.qty.toNat - n) }
  qty_reduce o n hn := by
    have hlt : o.qty.toNat - n < UInt32.size :=
      Nat.lt_of_le_of_lt (Nat.sub_le _ _) o.qty.toNat_lt
    exact UInt32.toNat_ofNat_of_lt' hlt

theorem qty_eq (o : Order) : Lot.qty o = o.qty.toNat := rfl

@[simp] theorem reduce_id (o : Order) (n : ℕ) : (Lot.reduce o n).id = o.id := rfl
@[simp] theorem reduce_price (o : Order) (n : ℕ) : (Lot.reduce o n).price = o.price := rfl

theorem reduce_reduce (o : Order) (m n : ℕ) :
    Lot.reduce (Lot.reduce o m) n = Lot.reduce o (m + n) := by
  have hlt : o.qty.toNat - m < UInt32.size := Nat.lt_of_le_of_lt (Nat.sub_le _ _) o.qty.toNat_lt
  have hm : (Lot.reduce o m).qty.toNat = o.qty.toNat - m := UInt32.toNat_ofNat_of_lt' hlt
  have hn : Lot.reduce (Lot.reduce o m) n =
      { o with qty := UInt32.ofNat ((Lot.reduce o m).qty.toNat - n) } := rfl
  rw [hn, hm, Nat.sub_sub]
  rfl

/-- `x` may stand before `y` in the container of side `s`. -/
def Ranks (s : Side) (x y : Order) : Prop := s.ahead x.price y.price

instance (s : Side) : DecidableRel (Ranks s) := fun x y =>
  inferInstanceAs (Decidable (s.ahead x.price y.price))

instance (s : Side) : Std.Total (Ranks s) := ⟨fun x y => s.ahead_total x.price y.price⟩

instance (s : Side) : IsTrans Order (Ranks s) := ⟨fun _ _ _ => Side.ahead_trans⟩

/-- `tradeable_price` of the matching loop: an aggressor of side `s` at price `p` trades with the
resting order. -/
def tradeable (s : Side) (p : Price32) (passive : Order) : Bool :=
  decide (s.opp.ahead passive.price p)

theorem tradeable_iff {s : Side} {p : Price32} {x : Order} :
    tradeable s p x = true ↔ s.opp.ahead x.price p := by
  rw [tradeable, decide_eq_true_eq]

theorem tradeable_reduce (s : Side) (p : Price32) (x : Order) (n : ℕ) :
    tradeable s p (Lot.reduce x n) = tradeable s p x := rfl

/-- Two orders of different sides trade with each other or not, whichever of them arrives. -/
theorem tradeable_comm (s : Side) (x y : Order) :
    tradeable s x.price y = tradeable s.opp y.price x := by
  unfold tradeable
  rw [Side.opp_opp, decide_eq_decide]
  exact Side.ahead_opp

/-- The comparison of the loop is `tradeable`. -/
theorem not_isMoreCons (o passive : Order) :
    (!Price32.isMoreCons o.price passive.price o.isBid) = tradeable o.side o.price passive := by
  unfold tradeable isBid
  cases o.side <;> simp [Side.opp, Side.ahead, ← not_lt]

/-- In a container sorted by rank, the orders an aggressor trades with come first. -/
theorem front_tradeable {s : Side} {p : Price32} {l : List Order}
    (hs : l.Pairwise (Ranks s.opp)) : Front (tradeable s p) l := by
  refine hs.imp fun {x y} hxy hy => ?_
  rw [tradeable_iff] at hy ⊢
  exact Side.ahead_trans hxy hy

end Order

end Mms
