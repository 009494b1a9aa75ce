import Mathlib.Data.Int.Order.Basic
import Mathlib.Order.Lattice

/-!
# Prices (`include/mms/market/Price.hh`)

`Price32` wraps a signed 32-bit price in cents; the smallest 32-bit value marks an invalid price.
The defaulted `<=>` of the class is the order of the wrapped integers, which is the `LinearOrder`
below. `isMoreCons` is the two-sided comparison the matching loop uses; `isMoreCons_bid` and
`isMoreCons_ask` read it in that order.
-/

namespace Mms

/-- `Price32` (`Price` is an alias for it). -/
structure Price32 where
  price : Int32
deriving DecidableEq, Repr

namespace Price32

/-- `INVALID_PRICE`: `std::numeric_limits<int>::min()`. -/
def invalidPrice : Int32 := Int32.minValue

/-- The default constructor. -/
instance : Inhabited Price32 := ⟨⟨invalidPrice⟩⟩

/-- `is_valid`. -/
def isValid (p : Price32) : Bool := p.price != invalidPrice

/-- `is_more_cons(lhs, rhs, is_bid)`. -/
def isMoreCons (lhs rhs : Price32) (isBid : Bool) : Bool :=
  if isBid then decide (lhs.price < rhs.price) else decide (lhs.price > rhs.price)

theorem toInt_injective : Function.Injective fun p : Price32 => p.price.toInt := by
  rintro ⟨p⟩ ⟨q⟩ h
  exact congrArg Price32.mk (Int32.toInt_inj.mp h)

/-- The defaulted `operator<=>`: prices compare as the integers they wrap. -/
instance : LinearOrder Price32 := LinearOrder.lift' (fun p => p.price.toInt) toInt_injective

theorem le_iff {p q : Price32} : p ≤ q ↔ p.price.toInt ≤ q.price.toInt := Iff.rfl

theorem lt_iff {p q : Price32} : p < q ↔ p.price < q.price := Int32.lt_iff_toInt_lt.symm

/-- A bid at `p` is more conservative than a price it does not reach. -/
@[simp] theorem isMoreCons_bid (p q : Price32) : isMoreCons p q true = decide (p < q) := by
  simp only [isMoreCons, if_true, lt_iff]

/-- An ask at `p` is more conservative than a price it stays above. -/
@[simp] theorem isMoreCons_ask (p q : Price32) : isMoreCons p q false = decide (q < p) := by
  simp only [isMoreCons, Bool.false_eq_true, if_false, lt_iff, gt_iff_lt]

end Price32

end Mms
