/-! # Characters and lines

White space is the Unicode property `White_Space`, letters and digits are the
ASCII ones, and case folding touches ASCII letters only. Text is handled as a
list of characters, so that every reader below is a function on lists.
-/

namespace Toolpath.Text

/-- Unicode `White_Space`: the 25 code points of the property, and no others. -/
def isBlank (c : Char) : Bool :=
  let n := c.toNat
  (0x09 ≤ n && n ≤ 0x0D) || n == 0x20 || n == 0x85 || n == 0xA0 || n == 0x1680 ||
    (0x2000 ≤ n && n ≤ 0x200A) || n == 0x2028 || n == 0x2029 || n == 0x202F ||
    n == 0x205F || n == 0x3000

/-- The text without white space at either end. -/
def trim (cs : List Char) : List Char :=
  ((cs.dropWhile isBlank).reverse.dropWhile isBlank).reverse

/-- ASCII letters in lower case, every other character as it is. -/
def lower (cs : List Char) : List Char :=
  cs.map Char.toLower

/-- A keyword as a person may type it: blanks around it and its case do not count. -/
def keyword (s : String) : String :=
  String.ofList (lower (trim s.toList))

/-- Equality up to the case of ASCII letters. -/
def sameLetters (s t : String) : Bool :=
  lower s.toList == lower t.toList

/-- A list without its last item if that is `a`. At most one item goes. -/
def dropFinal {α : Type} [DecidableEq α] (a : α) (as : List α) : List α :=
  if as.getLast? = some a then as.dropLast else as

/-- The lines of a text: line feeds end them, a carriage return just before a line feed
belongs to the ending, and an empty last line does not count. -/
def lines (cs : List Char) : List (List Char) :=
  let pieces := cs.splitOn '\n'
  let last := pieces.getLast?.getD []
  pieces.dropLast.map (dropFinal '\r') ++ if last = [] then [] else [last]

/-- The value of a run of decimal digits, the empty run being zero. -/
def digitsValue (cs : List Char) : Nat :=
  cs.foldl (fun n c => 10 * n + (c.toNat - '0'.toNat)) 0

/-- The decimal digits of a natural number, without leading zeros. -/
def digits (n : Nat) : List Char :=
  Nat.toDigits 10 n

/-- The value of a hexadecimal digit in either case. -/
def hexValue? (c : Char) : Option Nat :=
  if c.isDigit then some (c.toNat - '0'.toNat)
  else if 'a' ≤ c && c ≤ 'f' then some (c.toNat - 'a'.toNat + 10)
  else if 'A' ≤ c && c ≤ 'F' then some (c.toNat - 'A'.toNat + 10)
  else none

/-- The value of a run of hexadecimal digits, if it holds nothing else. -/
def hexRun? (cs : List Char) : Option Nat :=
  cs.foldlM (fun n c => (hexValue? c).map (16 * n + ·)) 0

/-- A hexadecimal digit in the case asked for. -/
def hexDigit (upper : Bool) (n : Nat) : Char :=
  if n < 10 then Char.ofNat ('0'.toNat + n)
  else Char.ofNat ((if upper then 'A'.toNat else 'a'.toNat) + (n - 10))

/-- The number as exactly four hexadecimal digits, its high part cut off. -/
def hexFour (upper : Bool) (n : Nat) : List Char :=
  [hexDigit upper (n / 4096 % 16), hexDigit upper (n / 256 % 16),
    hexDigit upper (n / 16 % 16), hexDigit upper (n % 16)]

end Toolpath.Text
