import Mathlib.Algebra.Order.Field.Rat
import SmartQuant.Lib.Binary64

/-!
# Fundamental types

The value types of `types.hpp`. `Price` and `Qty` are both `int64_t` in the source
and plain unbounded integers here; identifiers and nanosecond timestamps are
naturals, with the wrap of 64-bit arithmetic written out where the code subtracts
(`Word64`). A `double` that only passes through is read as the number it denotes;
`to_price` rounds where the code does (`Binary64`).
-/
namespace SmartQuant

/-- 1 USD = 100 price units. -/
def kPriceScale : Int := 100

/-- `static_cast<int64_t>` of a double: the fraction is dropped, towards zero. Outside
`int64_t` the cast is undefined; x86-64 then gives the least value. -/
def truncate (d : ℚ) : Int :=
  let n := d.num.tdiv d.den
  if -2 ^ 63 ≤ n ∧ n < 2 ^ 63 then n else -2 ^ 63

/-- The product and the sum are each rounded. -/
def toPrice (d : ℚ) : Int := truncate (Binary64.round (Binary64.round (d * kPriceScale) + 1 / 2))

inductive MDUpdateAction where
  | new | change | delete
  deriving DecidableEq, Repr

inductive MDEntryType where
  | bid | offer | trade
  deriving DecidableEq, Repr

structure LOBEvent where
  timestampNs : Nat
  /-- MDEntryID (tag 278); 0 when the tag is absent. -/
  entryId : Nat := 0
  price : Int := 0
  qty : Int := 0
  action : MDUpdateAction
  side : MDEntryType := .bid
  deriving DecidableEq, Repr

inductive Direction where
  | none | buy | sell
  deriving DecidableEq, Repr

/-- A trade signal. `R` stands for `double`. -/
structure Signal (R : Type*) [Zero R] where
  triggerTimeNs : Nat := 0
  l1Price : Int := 0
  deltaVal : R := 0
  cancelZ : R := 0
  direction : Direction := .none

inductive OrderStatus where
  | pending | sent | filled | rejected | cancelled
  deriving DecidableEq, Repr

inductive Side where
  | buy | sell
  deriving DecidableEq, Repr

structure Order where
  clordid : String := ""
  sentTsNs : Nat := 0
  fillTsNs : Nat := 0
  signalL1 : Int := 0
  fillPrice : Int := 0
  qty : Int := 0
  side : Side := .buy
  status : OrderStatus := .pending
  deriving DecidableEq, Repr

end SmartQuant
