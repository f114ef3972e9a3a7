/-! # Binary64 magnitudes

The magnitude of a double is a number of *units*, a unit being the smallest
subnormal, `2 ^ -1074`. Bit patterns without their sign count magnitudes in
order: the pattern `k * 2 ^ 52 + m` stands for `m * 2 ^ k` units, where `m` is
below `2 ^ 53`, and not below `2 ^ 52` unless `k` is zero. Subnormal and normal
numbers obey the same formula, and a rounding that carries into the next binade
lands on the right pattern by itself.
-/

namespace Toolpath.Binary64

/-- The number of patterns to a binade, `2 ^ 52`. It is also the least significand of a normal
number. -/
def binade : Nat := 0x10000000000000

/-- The bit of the sign, `2 ^ 63`, one above all magnitudes. -/
def signBit : UInt64 := 0x8000000000000000

/-- The pattern of infinity, one above the largest finite pattern. -/
def infinity : Nat := 0x7FF * binade

/-- The number of units in one. -/
def one : Nat := Nat.pow 2 1074

/-- The whole number `m` in `m * 2 ^ k` units. -/
def significand (bits : Nat) : Nat :=
  if bits < binade then bits else binade + bits % binade

/-- The power `k` in `m * 2 ^ k` units. -/
def scale (bits : Nat) : Nat :=
  bits / binade - 1

/-- How many units a finite pattern stands for. -/
def units (bits : Nat) : Nat :=
  significand bits * Nat.pow 2 (scale bits)

/-- The whole number nearest to a quotient, the even one of two that are equally near. -/
def roundHalfEven (num den : Nat) : Nat :=
  let quotient := num / den
  let twice := 2 * (num % den)
  if twice < den then quotient
  else if den < twice then quotient + 1
  else quotient + quotient % 2

/-- The pattern nearest to `num / den` units, the even one of two that are equally near, and
the pattern of infinity where the finite ones end. -/
def round (num den : Nat) : Nat :=
  let k := (num / den).log2 - 52
  min (k * binade + roundHalfEven num (den * Nat.pow 2 k)) infinity

/-- The pattern of a whole number below `2 ^ 53`. -/
def wholePattern (n : Nat) : Nat :=
  if n = 0 then 0 else (1022 + n.log2) * binade + n <<< (52 - n.log2)

/-- The double with a sign and a magnitude. -/
def ofMagnitude (negative : Bool) (bits : Nat) : Float :=
  let word := UInt64.ofNat bits
  Float.ofBits (if negative then signBit + word else word)

/-- The bit pattern without the sign. -/
def magnitude (x : Float) : Nat :=
  (x.toBits % signBit).toNat

/-- Whether the sign bit is set, as it is for negative zero. -/
def isNegative (x : Float) : Bool :=
  signBit ≤ x.toBits

/-- The positive infinity. -/
def positiveInfinity : Float :=
  ofMagnitude false infinity

/-- The negative infinity. -/
def negativeInfinity : Float :=
  ofMagnitude true infinity

/-- The double that is not a number. -/
def notANumber : Float :=
  ofMagnitude false (infinity + binade / 2)

theorem roundHalfEven_mul (m den : Nat) (hden : 0 < den) : roundHalfEven (m * den) den = m := by
  simp [roundHalfEven, Nat.mul_div_cancel _ hden, hden]

/-- One, split into two powers of two. -/
theorem one_eq_mul {a b : Nat} (h : a + b = 1074) : one = Nat.pow 2 a * Nat.pow 2 b := by
  unfold one
  rw [← h]
  exact Nat.pow_add 2 a b

theorem log2_mul_pow {n : Nat} (h : n ≠ 0) (k : Nat) : (n * Nat.pow 2 k).log2 = n.log2 + k := by
  have hpos : 0 < Nat.pow 2 k := Nat.two_pow_pos k
  rw [Nat.log2_eq_iff (Nat.mul_ne_zero h (Nat.ne_of_gt hpos))]
  constructor
  · rw [Nat.pow_add]
    exact Nat.mul_le_mul_right _ (Nat.log2_self_le h)
  · rw [Nat.add_right_comm, Nat.pow_add]
    exact Nat.mul_lt_mul_of_pos_right Nat.lt_log2_self hpos

/-- A whole number below `2 ^ 53` is a double, so that its pattern needs no rounding. -/
theorem wholePattern_eq_round {n : Nat} (h : n < 2 * binade) :
    wholePattern n = round (n * one) 1 := by
  by_cases hn : n = 0
  · subst hn
    rw [wholePattern, if_pos rfl, Nat.zero_mul]
    decide
  · have hlog : n.log2 < 53 := (Nat.log2_lt hn).2 h
    have hshift : n <<< (52 - n.log2) = n * Nat.pow 2 (52 - n.log2) := Nat.shiftLeft_eq _ _
    have hne : n <<< (52 - n.log2) ≠ 0 := by
      rw [hshift]
      exact Nat.mul_ne_zero hn (Nat.ne_of_gt (Nat.two_pow_pos _))
    have hfull : (n <<< (52 - n.log2)).log2 = 52 := by
      rw [hshift, log2_mul_pow hn]
      omega
    have hbound : n <<< (52 - n.log2) < 2 * binade :=
      (Nat.log2_lt hne).1 (by omega : _ < 53)
    have hsplit : n * one = n <<< (52 - n.log2) * Nat.pow 2 (1022 + n.log2) := by
      rw [one_eq_mul (a := 52 - n.log2) (b := 1022 + n.log2) (by omega), ← Nat.mul_assoc,
        hshift]
    have hk : (n * one / 1).log2 - 52 = 1022 + n.log2 := by
      rw [Nat.div_one, hsplit, log2_mul_pow hne, hfull]
      omega
    have hround := roundHalfEven_mul (n <<< (52 - n.log2)) (Nat.pow 2 (1022 + n.log2))
      (Nat.two_pow_pos _)
    simp only [wholePattern, if_neg hn, round, hk]
    rw [Nat.one_mul, hsplit, hround, Nat.min_eq_left]
    simp only [infinity, binade] at hbound ⊢
    omega

end Toolpath.Binary64
