import Toolpath.Number.PowerOfTen

/-! # Rounding and comparing doubles

Rounding to a number of places goes half away from zero, and is done on the
scaled double: the product and the quotient are double arithmetic, the step to
a whole number between them is exact.
-/

namespace Toolpath.Number

open Binary64

/-- The largest number of places a double is rounded to; it has no more digits than that. -/
def maxPlaces : Nat := 15

/-- The whole number nearest to a magnitude below `2 ^ 52`, halves going up. The number is cut off
behind its first binary place and one half is added. -/
def nearestWhole (bits : Nat) : Nat :=
  (significand bits >>> (1073 - scale bits) + 1) / 2

/-- The nearest whole number is one half more, cut off behind the point. -/
theorem nearestWhole_eq {bits : Nat} (h : bits < 1075 * binade) :
    nearestWhole bits = (2 * units bits + one) / (2 * one) := by
  have hscale : scale bits ≤ 1073 := by
    have : bits / binade < 1075 := Nat.div_lt_of_lt_mul (by rwa [Nat.mul_comm])
    simp only [scale]
    omega
  have hpos : 0 < Nat.pow 2 (1073 - scale bits) := Nat.two_pow_pos _
  have hone : one = Nat.pow 2 (1073 - scale bits) * (2 * Nat.pow 2 (scale bits)) := by
    rw [one_eq_mul (a := 1073 - scale bits) (b := scale bits + 1) (by omega)]
    exact congrArg _ (Nat.pow_succ'.trans rfl)
  have hnum : 2 * units bits + one =
      (significand bits + Nat.pow 2 (1073 - scale bits)) * (2 * Nat.pow 2 (scale bits)) := by
    rw [hone, units, Nat.add_mul]
    ac_rfl
  have hden : 2 * one =
      Nat.pow 2 (1073 - scale bits) * 2 * (2 * Nat.pow 2 (scale bits)) := by
    rw [hone]
    ac_rfl
  have hfactor : 0 < 2 * Nat.pow 2 (scale bits) :=
    Nat.mul_pos (by decide) (Nat.two_pow_pos _)
  rw [hnum, hden, Nat.mul_div_mul_right _ _ hfactor, ← Nat.div_div_eq_div_mul,
    Nat.add_div_right _ hpos, nearestWhole, Nat.shiftRight_eq_div_pow]
  rfl

/-- The whole number nearest to a finite double, halves going away from zero. Doubles from
`2 ^ 52` on are whole already. -/
def roundWhole (x : Float) : Float :=
  let bits := magnitude x
  if 1075 * binade ≤ bits then x
  else ofMagnitude (isNegative x) (wholePattern (nearestWhole bits))

/-- The double rounded to `places` decimal places. Where nothing can be rounded, in a double
that is not finite or too large to scale, it is left alone. -/
def roundTo (x : Float) (places : Nat) : Float :=
  if !x.isFinite then x
  else
    let factor := powerOfTen (min places maxPlaces)
    let scaled := x * factor
    if !scaled.isFinite then x else roundWhole scaled / factor

/-- The smaller of two doubles; one that is not a number gives way to the other, and of two
equal ones the first is meant. -/
def lesser (a b : Float) : Float :=
  if b < a || a.isNaN then b else a

/-- The larger of two doubles; one that is not a number gives way to the other, and of two
equal ones the first is meant. -/
def greater (a b : Float) : Float :=
  if a < b || a.isNaN then b else a

end Toolpath.Number
