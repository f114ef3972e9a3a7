import Toolpath.Document.Data
import Toolpath.Number.PowerOfTen
import Toolpath.Text.Basic

/-! # JSON numbers

A number is read as a coefficient and a power of ten. The coefficient takes in
digits as long as it fits in 64 bits; those that come too late only count for
the power. Both are rounded to doubles before they are multiplied or divided,
so that a number with more than fifteen digits may be read as a neighbour of
the nearest double.
-/

namespace Toolpath.Json

open Text Number

/-- Whether a character can be part of a number. -/
def isNumeric (c : Char) : Bool :=
  c.isDigit || c = '-' || c = '+' || c = '.' || c = 'e' || c = 'E'

/-- A coefficient with as many of the digits behind it as 64 bits can hold, and the digits left
over. -/
def absorb (coefficient : Nat) : List Char → Nat × List Char
  | [] => (coefficient, [])
  | c :: cs =>
      let next := 10 * coefficient + (c.toNat - '0'.toNat)
      if fits64 next then absorb next cs else (coefficient, c :: cs)

/-- The number with the given digits before and after the point, times a power of ten. Digits
before the point that are left over still raise the power; behind the point the coefficient
takes in digits again. -/
def scaled (negative : Bool) (whole fraction : List Char) (exponent : Int) : Decimal :=
  let (coefficient, left) := absorb 0 whole
  let (coefficient, rest) := absorb coefficient fraction
  ⟨negative, coefficient, exponent + left.length - (fraction.length - rest.length : Nat)⟩

/-- The double of a coefficient times a power of ten, unless it is beyond the finite ones. A power
that is itself beyond them divides in two steps. -/
def approximate? (d : Decimal) : Option Float :=
  let x := d.coefficient.toUInt64.toFloat
  let down := (-d.exponent).toNat
  let y :=
    if d.coefficient = 0 then x
    else if 0 ≤ d.exponent then x * powerOfTen d.exponent.toNat
    else if down ≤ 308 then x / powerOfTen down
    else x / powerOfTen 308 / powerOfTen (down - 308)
  if y.isFinite then some (if d.negative then -y else y) else none

/-- The data of a double. -/
def floatData (d : Decimal) : Data :=
  ((approximate? d).map Data.float).getD .void

/-- The data of a whole number. Negative zero is a double, and so is what 64 bits cannot hold. -/
def wholeNumber (negative : Bool) (whole : List Char) : Data :=
  let n := digitsValue whole
  if !negative && fits64 n then .integer n
  else if negative && 0 < n && fitsSigned64 (-n) then .integer (-n)
  else floatData (scaled negative whole [] 0)

/-- The data of a number, if the characters are one. The whole part has no leading zeros, a
point has digits on both sides, and so has an exponent on its right. -/
def number? (cs : List Char) : Option Data :=
  let (negative, body) :=
    match cs with
    | '-' :: rest => (true, rest)
    | rest => (false, rest)
  let whole := body.takeWhile Char.isDigit
  let rest := body.dropWhile Char.isDigit
  if whole = [] ∨ (1 < whole.length ∧ whole.head? = some '0') then none
  else
    match rest with
    | [] => some (wholeNumber negative whole)
    | '.' :: r =>
        let fraction := r.takeWhile Char.isDigit
        if fraction = [] then none
        else (Decimal.exponent? (r.dropWhile Char.isDigit)).map fun e =>
          floatData (scaled negative whole fraction e)
    | r => (Decimal.exponent? r).map fun e => floatData (scaled negative whole [] e)

end Toolpath.Json
