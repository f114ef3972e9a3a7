import Toolpath.Number.Binary64
import Toolpath.Text.Basic

/-! # Decimal numbers and their texts

A decimal is a sign, a coefficient, and a power of ten. Its double is the
nearest one, found in exact arithmetic whatever the number of digits.
-/

namespace Toolpath

open Text

/-- The number `± coefficient * 10 ^ exponent`. The sign of zero is kept. -/
structure Decimal where
  negative : Bool
  coefficient : Nat
  exponent : Int
  deriving DecidableEq, Repr

namespace Decimal

/-- The bit pattern nearest to the absolute value. The two outer cases only keep the powers of
ten small: beyond them the answer is infinity or zero for every coefficient. -/
def magnitude (d : Decimal) : Nat :=
  if d.coefficient = 0 then 0
  else if 330 < d.exponent then Binary64.infinity
  else if d.exponent + d.coefficient.log2 / 3 < -340 then 0
  else if 0 ≤ d.exponent then
    Binary64.round (d.coefficient * Nat.pow 10 d.exponent.toNat * Binary64.one) 1
  else
    Binary64.round (d.coefficient * Binary64.one) (Nat.pow 10 (-d.exponent).toNat)

/-- The nearest double, infinite beyond the finite ones. -/
def toFloat (d : Decimal) : Float :=
  Binary64.ofMagnitude d.negative d.magnitude

/-- The decimal with the given digits before and after the point, times a power of ten. -/
def ofDigits (negative : Bool) (whole fraction : List Char) (exponent : Int) : Decimal :=
  ⟨negative, digitsValue (whole ++ fraction), exponent - fraction.length⟩

/-- A sign in front of a number, and what stands behind it; without one the number is
positive. -/
def takeSign : List Char → Bool × List Char
  | '-' :: cs => (true, cs)
  | '+' :: cs => (false, cs)
  | cs => (false, cs)

/-- A whole number with an optional sign, and nothing else. -/
def integer? (cs : List Char) : Option Int :=
  let (negative, ds) := takeSign cs
  if ds = [] ∨ !ds.all Char.isDigit then none
  else
    let n : Int := digitsValue ds
    some (if negative then -n else n)

/-- The part of a number behind its digits: nothing, or an exponent. -/
def exponent? : List Char → Option Int
  | [] => some 0
  | c :: cs => if c = 'e' ∨ c = 'E' then integer? cs else none

/-- A number without its sign: digits with at most one point among or around them, and possibly
an exponent. -/
def unsigned? (negative : Bool) (cs : List Char) : Option Decimal :=
  let whole := cs.takeWhile Char.isDigit
  let afterWhole := cs.dropWhile Char.isDigit
  let (fraction, rest) :=
    match afterWhole with
    | '.' :: r => (r.takeWhile Char.isDigit, r.dropWhile Char.isDigit)
    | r => ([], r)
  if whole = [] ∧ fraction = [] then none
  else (exponent? rest).map (ofDigits negative whole fraction)

end Decimal

namespace Number

/-- The double that a text names. Besides decimals these are infinity and not-a-number under
their usual names, in any case and with a sign. -/
def read? (cs : List Char) : Option Float :=
  let (negative, body) := Decimal.takeSign cs
  let name := String.ofList (lower body)
  if name = "inf" ∨ name = "infinity" then some (Binary64.ofMagnitude negative Binary64.infinity)
  else if name = "nan" then some Binary64.notANumber
  else (Decimal.unsigned? negative body).map Decimal.toFloat

end Number

end Toolpath
