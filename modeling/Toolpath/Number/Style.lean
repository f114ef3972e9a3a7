import Toolpath.Number.Shortest

/-! # Written numbers

The digits of a double are its shortest ones. A style decides how they are laid
out; the program has three, one for text meant for people and for point files,
one for JSON, and one for TOML.
-/

namespace Toolpath.Number

open Text

/-- How a finite double is laid out. -/
structure Style where
  /-- The exponents of the first digit that are written without an exponent. -/
  positional : Int → Bool
  /-- Whole numbers end in `.0`. -/
  point : Bool
  /-- Of two decimals that are equally short and equally near the larger is written, and
  otherwise the even one. -/
  upward : Bool

/-- Plain text: never an exponent, and no point in a whole number. -/
def plain : Style := ⟨fun _ => true, false, true⟩

/-- JSON numbers: an exponent outside `10 ^ -5` to `10 ^ 16`, and always a mark of a fraction. -/
def json : Style := ⟨fun e => -5 ≤ e && e < 16, true, false⟩

/-- TOML floats: as plain text, with a point in whole numbers. -/
def toml : Style := ⟨fun _ => true, true, true⟩

/-- Digits with the point put in its place and zeros filled up to it. -/
def layPositional (point : Bool) (ds : List Char) (exponent : Int) : List Char :=
  if 0 ≤ exponent then
    ds ++ List.replicate exponent.toNat '0' ++ if point then ['.', '0'] else []
  else
    let places := (-exponent).toNat
    if places < ds.length then
      ds.take (ds.length - places) ++ '.' :: ds.drop (ds.length - places)
    else
      '0' :: '.' :: List.replicate (places - ds.length) '0' ++ ds

/-- Digits with the point behind the first and the exponent of the first, its sign shown. -/
def layScientific (ds : List Char) (leading : Int) : List Char :=
  let mantissa :=
    match ds with
    | first :: second :: more => first :: '.' :: second :: more
    | ds => ds
  let sign := if leading < 0 then '-' else '+'
  mantissa ++ 'e' :: sign :: digits leading.natAbs

/-- The text of a decimal without its sign. -/
def layOut (style : Style) (d : Decimal) : List Char :=
  let ds := digits d.coefficient
  let leading := d.exponent + ds.length - 1
  if style.positional leading then layPositional style.point ds d.exponent
  else layScientific ds leading

/-- The text of a finite magnitude. -/
def layMagnitude (style : Style) (bits : Nat) : List Char :=
  if bits = 0 then layOut style ⟨false, 0, 0⟩
  else layOut style (Shortest.ofMagnitude style.upward bits)

/-- The text of a finite double, with a minus sign for negative zero. -/
def finiteText (style : Style) (x : Float) : List Char :=
  (if Binary64.isNegative x then ['-'] else []) ++ layMagnitude style (Binary64.magnitude x)

/-- The plain text of any double. -/
def text (x : Float) : List Char :=
  if x.isNaN then "NaN".toList
  else if x.isFinite then finiteText plain x
  else if Binary64.isNegative x then "-inf".toList
  else "inf".toList

/-- The plain text as a string. -/
def display (x : Float) : String :=
  String.ofList (text x)

end Toolpath.Number
