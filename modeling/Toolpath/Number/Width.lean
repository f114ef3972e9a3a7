/-! # Numbers of fixed width

Counters and settings are whole numbers of a fixed width. A number that does
not fit is refused where it is read; nothing wraps around.
-/

namespace Toolpath.Number

/-- Whether a natural number fits in 32 bits. -/
def fits32 (n : Nat) : Bool := n < 0x100000000

/-- Whether a natural number fits in 64 bits. -/
def fits64 (n : Nat) : Bool := n < 0x10000000000000000

/-- Whether an integer and its sign fit in 64 bits. -/
def fitsSigned64 (n : Int) : Bool :=
  -0x8000000000000000 ≤ n && n ≤ 0x7FFFFFFFFFFFFFFF

end Toolpath.Number
