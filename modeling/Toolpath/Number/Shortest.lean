import Toolpath.Number.Decimal

/-! # Shortest decimals

The shortest decimal of a double is the one with the fewest digits that reads
back as the same double, and of those the nearest. It is looked for on the
decimal grids with one digit, two digits, and so on: if a grid has a point that
reads back, then one of the double's two neighbours on that grid does.
-/

namespace Toolpath.Shortest

open Binary64

/-- The exponent of the first decimal digit of a finite, non-zero magnitude. The estimate from
the binary exponent is one too low at most. -/
def leadingExponent (bits : Nat) : Int :=
  let binary : Int := ((units bits).log2 : Int) - 1074
  let estimate := Int.fdiv (binary * 30103) 100000
  let reached : Bool :=
    if 0 ≤ estimate + 1 then Nat.pow 10 (estimate + 1).toNat * one ≤ units bits
    else one ≤ units bits * Nat.pow 10 (-(estimate + 1)).toNat
  if reached then estimate + 1 else estimate

/-- A magnitude in multiples of `10 ^ exponent`, as a fraction. -/
def ratio (bits : Nat) (exponent : Int) : Nat × Nat :=
  if 0 ≤ exponent then (units bits, one * Nat.pow 10 exponent.toNat)
  else (units bits * Nat.pow 10 (-exponent).toNat, one)

/-- A decimal with a coefficient that reads back as the magnitude. -/
def readBack? (bits : Nat) (exponent : Int) (coefficient : Nat) : Option Decimal :=
  let d : Decimal := ⟨false, coefficient, exponent⟩
  if d.magnitude = bits then some d else none

/-- A neighbour on the grid of `10 ^ exponent` that reads back as the magnitude, the nearer one if
both do. When they are equally near, `upward` prefers the larger one, and otherwise it is the even
one. A neighbour that is off by more than half of the last binary place cannot read back and is
not tried. -/
def onGrid? (upward : Bool) (bits : Nat) (exponent : Int) : Option Decimal :=
  let (num, den) := ratio bits exponent
  let below := num / den
  let rest := num % den
  let twice := 2 * rest
  if num < 2 * significand bits * min rest (den - rest) then none
  else if twice < den || twice == den && !upward && below % 2 == 0 then
    (readBack? bits exponent below).or (readBack? bits exponent (below + 1))
  else (readBack? bits exponent (below + 1)).or (readBack? bits exponent below)

/-- The decimal equal to the magnitude, with all its digits. -/
def exact (bits : Nat) : Decimal :=
  let k := scale bits
  if 1074 ≤ k then ⟨false, significand bits * Nat.pow 2 (k - 1074), 0⟩
  else ⟨false, significand bits * Nat.pow 5 (1074 - k), (k : Int) - 1074⟩

/-- The same decimal with a coefficient that does not end in a zero. -/
def dropZeros (d : Decimal) : Decimal :=
  if d.coefficient = 0 then d
  else if d.coefficient % 10 = 0 then
    dropZeros ⟨d.negative, d.coefficient / 10, d.exponent + 1⟩
  else d
termination_by d.coefficient
decreasing_by exact Nat.div_lt_self (Nat.pos_of_ne_zero ‹_›) (by decide)

/-- The shortest decimal of a finite, non-zero magnitude. Seventeen digits are enough for every
double; the exact decimal stands behind the search so that the answer reads back by
construction. -/
def ofMagnitude (upward : Bool) (bits : Nat) : Decimal :=
  let first := leadingExponent bits
  let found := (List.range 17).findSome? fun (n : Nat) => onGrid? upward bits (first - n)
  dropZeros (found.getD (exact bits))

end Toolpath.Shortest
