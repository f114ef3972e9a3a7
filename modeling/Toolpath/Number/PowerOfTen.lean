import Toolpath.Number.Decimal

/-! # Powers of ten

The doubles nearest to the powers of ten. Up to `10 ^ 22` they are exact, and
beyond `10 ^ 308` they are infinite.
-/

namespace Toolpath.Number

/-- The doubles nearest to the finite powers of ten, in order. -/
def powersOfTen : Array Float :=
  ((List.range 309).map fun (n : Nat) => (Decimal.mk false 1 n).toFloat).toArray

/-- The double nearest to `10 ^ n`. -/
def powerOfTen (n : Nat) : Float :=
  powersOfTen.getD n Binary64.positiveInfinity

theorem powerOfTen_eq_toFloat {n : Nat} (h : n < 309) :
    powerOfTen n = (Decimal.mk false 1 n).toFloat := by
  simp [powerOfTen, powersOfTen, Array.getD, h]

end Toolpath.Number
