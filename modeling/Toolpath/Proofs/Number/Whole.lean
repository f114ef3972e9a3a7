import Mathlib.Algebra.Order.Field.Basic
import Mathlib.Data.Nat.Log
import Mathlib.Data.Rat.Cast.Order
import Mathlib.Tactic.FieldSimp
import Toolpath.Proofs.Number.Exact
import Toolpath.Proofs.Number.Signed

/-! # Whole parts, and sums next to a whole number

The whole part of a positive double is cut off exactly. What is rounded to a
double comes to a whole number from below if it is beyond the middle between
that number and the double in front of it. So a whole number may be the whole
part of a sum that is a little less.
-/

namespace Toolpath.Binary64

open Float.Model UnpackedFloat

/-! ## Whole parts -/

theorem mantissa_shiftRight (em : ExtendedMantissa) (n : Nat) :
    (em >>> n).mantissa = em.mantissa / 2 ^ n := by
  induction n with
  | zero => exact (Nat.div_one _).symm
  | succ n ih =>
      change (em >>> n).mantissa / 2 = _
      rw [ih, Nat.div_div_eq_div_mul, Nat.pow_succ]

/-- Cutting off what is behind the point leaves the whole part. -/
theorem roundToInt_eq (negative : Bool) (bits : Nat) :
    roundToInt (signOf negative) (significand bits) (scale bits - 1074) =
      (signOf negative).apply (units bits / one : Nat) := by
  dsimp only [roundToInt, decreaseExponent, shiftToExponent]
  rw [mantissa_shiftRight, Number.mantissa_ofMantissaAndAccuracy, Nat.shiftLeft_eq, units]
  generalize hup : ((scale bits : Int) - 1074 - 0).toNat = up
  generalize hdown : (0 - ((scale bits : Int) - 1074 - up)).toNat = down
  have hquot : significand bits * 2 ^ up / 2 ^ down =
      significand bits * Nat.pow 2 (scale bits) / one := by
    by_cases hlarge : 1074 ≤ scale bits
    · have hsplit : scale bits = up + 1074 := by omega
      obtain rfl : down = 0 := by omega
      have hpow : Nat.pow 2 (scale bits) = 2 ^ up * one := by
        rw [Decimal.two_pow_mul_one rfl, hsplit]
        rfl
      rw [hpow, ← Nat.mul_assoc, Nat.mul_div_cancel _ one_pos, Nat.pow_zero, Nat.div_one]
    · obtain rfl : up = 0 := by omega
      rw [one_eq_mul (a := down) (b := scale bits) (by omega)]
      simp only [Nat.pow_eq]
      rw [Nat.mul_div_mul_right _ _ (Nat.two_pow_pos _), Nat.pow_zero, Nat.mul_one]
  rw [hquot]

variable {x y : Float}

/-- The whole part of a finite double, as far as it fits and is not negative. -/
theorem toNat_toUInt64 (hx : x.isFinite = true) :
    x.toUInt64.toNat = min ((value x).toNat / one) (2 ^ 64 - 1) := by
  have hwhole : (UnpackedFloat.toInt 0 (UInt64.size - 1) x.toModel.unpack).toNat =
      (value x).toNat / one := by
    rw [unpack_eq_decoded hx, value]
    generalize magnitude x = bits, isNegative x = negative
    by_cases hzero : bits = 0
    · rw [hzero, signedUnits_zero, Int.toNat_zero, Nat.zero_div]
      rfl
    · rw [decoded_eq_finite negative hzero]
      change (roundToInt _ _ _).toNat = _
      rw [roundToInt_eq]
      cases negative with
      | false => rfl
      | true =>
          have hneg (n : Nat) : (-(n : Int)).toNat = 0 := Int.toNat_neg_natCast n
          change (-((units bits / one : Nat) : Int)).toNat = (-(units bits : Int)).toNat / one
          rw [hneg, hneg, Nat.zero_div]
  change (UInt64.ofNatClamp _).toNat = _
  rw [hwhole, UInt64.ofNatClamp]
  have hsize : UInt64.size = 2 ^ 64 := rfl
  split
  next hfits =>
    rw [UInt64.toNat_ofNatLT]
    omega
  next hlarge =>
    rw [UInt64.toNat_ofNatLT]
    omega

theorem le_toNat_toUInt64_iff (hx : x.isFinite = true) {n : Nat} (hpos : 0 < n)
    (hn : n < 2 ^ 64) : n ≤ x.toUInt64.toNat ↔ ((n * one : Nat) : Int) ≤ value x := by
  have hunits : 0 < n * one := Nat.mul_pos hpos one_pos
  rw [toNat_toUInt64 hx, Nat.le_min, Nat.le_div_iff_mul_le one_pos]
  generalize n * one = units at hunits
  omega

/-! ## Rounding next to a pattern -/

section Binade

variable {m k num : Nat}

/-- The least pattern of the next binade is taken in. -/
theorem units_binade_add (hlow : 2 ^ 52 ≤ m) (hhigh : m ≤ 2 ^ 53) :
    units (k * binade + m) = m * 2 ^ k := by
  rcases Nat.lt_or_eq_of_le hhigh with hlt | rfl
  · exact units_normal hlow hlt k
  · have hnext : k * binade + 2 ^ 53 = (k + 1) * binade + 2 ^ 52 := by
      simp only [binade]
      omega
    rw [hnext, units_normal (Nat.le_refl _) (by decide), Nat.pow_succ]
    omega

/-- Between two powers of two all doubles are equally far apart. -/
theorem round_of_binade (hlow : 2 ^ 52 * 2 ^ k ≤ num) (hhigh : num < 2 ^ 53 * 2 ^ k) :
    round num 1 = min (k * binade + roundHalfEven num (2 ^ k)) infinity := by
  have hne : num ≠ 0 := Nat.ne_of_gt
    (Nat.lt_of_lt_of_le (Nat.mul_pos (by decide) (Nat.two_pow_pos k)) hlow)
  have hlog : num.log2 = 52 + k := by
    rw [Nat.log2_eq_iff hne, Nat.pow_add, Nat.add_right_comm, Nat.pow_add]
    exact ⟨hlow, hhigh⟩
  rw [round, Nat.div_one, hlog, Nat.add_sub_cancel_left, Nat.one_mul]
  rfl

variable (hlow : 2 ^ 52 < m) (hhigh : m ≤ 2 ^ 53) (hlt : k * binade + m < infinity)

include hlow hhigh hlt

/-- What is below the middle between a pattern and the one before it is rounded to less. -/
theorem round_lt_of_lt (h : 2 * num + 2 ^ k < 2 * (m * 2 ^ k)) : round num 1 < k * binade + m := by
  have hm : m * 2 ^ k ≤ 2 ^ 53 * 2 ^ k := Nat.mul_le_mul_right _ hhigh
  rcases Nat.lt_or_ge num (2 ^ 52 * 2 ^ k) with hsmall | hlarge
  · have hleast := units_binade_add (k := k) (Nat.le_refl (2 ^ 52)) (by decide)
    calc round num 1
      _ ≤ round (2 ^ 52 * 2 ^ k) 1 := round_le_round_of_le (Nat.le_of_lt hsmall)
      _ = k * binade + 2 ^ 52 := by
          rw [← hleast]
          exact round_units (by omega)
      _ < k * binade + m := Nat.add_lt_add_left hlow _
  · rw [round_of_binade hlarge (by omega)]
    exact Nat.lt_of_le_of_lt (Nat.min_le_left _ _) (Nat.add_lt_add_left (roundHalfEven_lt h) _)

/-- What is beyond the middle between a pattern and the one before it is not rounded to less. -/
theorem le_round_of_lt (h : 2 * (m * 2 ^ k) < 2 * num + 2 ^ k) : k * binade + m ≤ round num 1 := by
  have hm : (2 ^ 52 + 1) * 2 ^ k ≤ m * 2 ^ k := Nat.mul_le_mul_right _ hlow
  have hpos : 0 < 2 ^ k := Nat.two_pow_pos k
  rw [Nat.succ_mul] at hm
  rcases Nat.lt_or_ge num (2 ^ 53 * 2 ^ k) with hsmall | hlarge
  · rw [round_of_binade (by omega) hsmall]
    exact Nat.le_min.mpr
      ⟨Nat.add_le_add_left (le_roundHalfEven_of_lt hpos h) _, Nat.le_of_lt hlt⟩
  · have hunits := units_binade_add (k := k) (Nat.le_of_lt hlow) hhigh
    calc k * binade + m
      _ = round (m * 2 ^ k) 1 := by
          rw [← hunits]
          exact (round_units hlt).symm
      _ ≤ round num 1 := round_le_round_of_le (Nat.le_trans (Nat.mul_le_mul_right _ hhigh) hlarge)

end Binade

/-! ## Sums -/

section Sum

variable (hx : x.isFinite = true) (hy : y.isFinite = true)

include hx hy

theorem value_add_nonpos (h : value x + value y ≤ 0) : value (x + y) ≤ 0 := by
  rw [value_add hx hy]
  rcases Int.lt_or_eq_of_le h with hneg | hzero
  · rw [nearest_of_neg hneg]
    exact Int.neg_nonpos_of_nonneg (Int.natCast_nonneg _)
  · rw [hzero, nearest, Int.natAbs_zero, round_zero Nat.one_pos, signedUnits_zero]

theorem value_add_of_pos (h : 0 < value x + value y) :
    value (x + y) = units (round (value x + value y).natAbs 1) := by
  rw [value_add hx hy, nearest_of_nonneg (Int.le_of_lt h)]

/-- A sum comes to a pattern if it is beyond the middle between that one and the one before it. -/
theorem le_value_add_iff {m k : Nat} (hlow : 2 ^ 52 < m) (hhigh : m ≤ 2 ^ 53)
    (hlt : k * binade + m < infinity) (hsum : (x + y).isFinite = true)
    (hmiddle : 2 * (value x + value y) + (2 ^ k : Nat) ≠ 2 * (m * 2 ^ k : Nat)) :
    ((m * 2 ^ k : Nat) : Int) ≤ value (x + y) ↔
      2 * ((m * 2 ^ k : Nat) : Int) < 2 * (value x + value y) + (2 ^ k : Nat) := by
  have hpos : 0 < 2 ^ k := Nat.two_pow_pos k
  have hm : 2 ^ k < m * 2 ^ k := by
    have htwo : 2 * 2 ^ k ≤ m * 2 ^ k := Nat.mul_le_mul_right _ (by omega)
    omega
  rcases Int.lt_or_le 0 (value x + value y) with hplus | hminus
  · have hfinite := isFinite_iff.mp hsum
    rw [magnitude_add hx hy] at hfinite
    have hunits := units_binade_add (k := k) (Nat.le_of_lt hlow) hhigh
    rw [value_add_of_pos hx hy hplus, Int.ofNat_le, ← hunits]
    generalize hnum : (value x + value y).natAbs = num at hfinite
    rcases Nat.lt_or_ge (2 * (m * 2 ^ k)) (2 * num + 2 ^ k) with hbeyond | hbelow
    · have hle := units_le_units (le_round_of_lt hlow hhigh hlt hbeyond) hfinite
      rw [hunits]
      omega
    · have hmiddle : 2 * num + 2 ^ k < 2 * (m * 2 ^ k) := by omega
      have hless := units_lt_units (round_lt_of_lt hlow hhigh hlt hmiddle) hlt
      rw [hunits] at hless ⊢
      omega
  · have hnone := value_add_nonpos hx hy hminus
    omega

end Sum

/-- Large doubles are multiples of large powers of two. -/
theorem two_pow_dvd_units {bits j : Nat} (h : 2 ^ (53 + j) ≤ units bits) :
    2 ^ (j + 1) ∣ units bits := by
  have hscale : j < scale bits := by
    refine Nat.lt_of_not_le fun hle => Nat.lt_irrefl _ (Nat.lt_of_lt_of_le ?_ h)
    calc units bits
      _ < 2 ^ 53 * 2 ^ scale bits :=
          Nat.mul_lt_mul_of_pos_right (Number.significand_lt bits) (Nat.two_pow_pos _)
      _ ≤ 2 ^ 53 * 2 ^ j := Nat.mul_le_mul_left _ (Nat.pow_le_pow_right (by decide) hle)
      _ = 2 ^ (53 + j) := (Nat.pow_add ..).symm
  exact Nat.dvd_mul_left_of_dvd (Nat.pow_dvd_pow 2 hscale) _

/-! ## Whole numbers -/

/-- A whole number as a pattern, with the scale of the doubles in front of it. -/
theorem exists_significand {n : Nat} (hpos : 0 < n) (hn : n ≤ 2 ^ 53) :
    ∃ m, 2 ^ 52 < m ∧ m ≤ 2 ^ 53 ∧ n * one = m * 2 ^ (Nat.clog 2 n + 1021) := by
  have hle : n ≤ 2 ^ Nat.clog 2 n := Nat.le_pow_clog (by decide) n
  have hclog : Nat.clog 2 n ≤ 53 := Nat.clog_le_of_le_pow hn
  have hlt : 2 ^ Nat.clog 2 n < 2 * n := by
    rcases Nat.lt_or_eq_of_le (Nat.succ_le_of_lt hpos) with hmany | hone
    · have hpred := Nat.pow_pred_clog_lt_self (by decide : 1 < 2) hmany
      have hsucc := Nat.succ_pred_eq_of_pos (Nat.clog_pos (by decide : 1 < 2) hmany)
      rw [← hsucc, Nat.pow_succ]
      omega
    · obtain rfl : n = 1 := hone.symm
      rw [Nat.clog_one_right]
      decide
  generalize Nat.clog 2 n = c at hle hclog hlt
  have hsplit : 2 ^ c * 2 ^ (53 - c) = 2 ^ 53 := by rw [← Nat.pow_add, Nat.add_sub_cancel' hclog]
  have hpow : 0 < 2 ^ (53 - c) := Nat.two_pow_pos _
  refine ⟨n * 2 ^ (53 - c), ?_, ?_, ?_⟩
  · have hhalf := Nat.mul_lt_mul_of_pos_right hlt hpow
    rw [hsplit, Nat.mul_assoc] at hhalf
    omega
  · exact hsplit ▸ Nat.mul_le_mul_right _ hle
  · rw [one_eq_mul (a := 53 - c) (b := c + 1021) (by omega), ← Nat.mul_assoc]
    rfl

/-- The number that a finite double stands for. -/
def toRat (x : Float) : ℚ :=
  value x / one

theorem toRat_eq {m i j : Nat} (hsum : i + j = 1074) (h : value x = (m * 2 ^ j : Nat)) :
    toRat x = m / 2 ^ i := by
  have hpow : (2 : ℚ) ^ j ≠ 0 := pow_ne_zero j two_ne_zero
  rw [toRat, h, ← two_pow_eq_one hsum]
  push_cast
  rw [pow_add, mul_div_mul_right _ _ hpow]

/-- One half of the distance between the doubles below a power of two, in units. -/
theorem two_zpow_sub_eq (c : Nat) :
    (2 : ℚ) ^ ((c : ℤ) - 54) = (2 ^ (c + 1021) : Nat) / (2 * one) := by
  obtain ⟨m, hm⟩ : ∃ m, m = 1074 := ⟨_, rfl⟩
  have hexponent : (c : ℤ) - 54 = (c + 1021 : Nat) - (m + 1 : Nat) := by omega
  rw [← two_pow_eq_one hm, hexponent, zpow_sub₀ two_ne_zero, zpow_natCast, zpow_natCast,
    pow_succ' 2 m]
  push_cast
  rfl

/-- The whole part of a sum comes to a whole number if the exact sum falls short of it by less than
one half of the distance to the double in front of it. -/
theorem le_toNat_add_iff (hx : x.isFinite = true) (hy : y.isFinite = true)
    (hsum : (x + y).isFinite = true) {n : Nat} (hpos : 0 < n) (hn : n ≤ 2 ^ 53)
    (hmiddle : ∀ m > 2 ^ 52, 2 * (value x + value y) + (2 ^ (Nat.clog 2 n + 1021) : Nat) ≠
      2 * (m * 2 ^ (Nat.clog 2 n + 1021) : Nat)) :
    n ≤ (x + y).toUInt64.toNat ↔
      (n : ℚ) < toRat x + toRat y + 2 ^ ((Nat.clog 2 n : ℤ) - 54) := by
  obtain ⟨m, hlow, hhigh, hsplit⟩ := exists_significand hpos hn
  have hclog : Nat.clog 2 n ≤ 53 := Nat.clog_le_of_le_pow hn
  have hlt : (Nat.clog 2 n + 1021) * binade + m < infinity := by
    simp only [binade, infinity]
    omega
  have hunits := le_value_add_iff hx hy hlow hhigh hlt hsum (hmiddle m hlow)
  rw [← hsplit] at hunits
  have hone : (0 : ℚ) < 2 * one := mul_pos two_pos (Nat.cast_pos.mpr Binary64.one_pos)
  have hdiv (a b p : ℚ) {u : ℚ} (hu : u ≠ 0) :
      a / u + b / u + p / (2 * u) = (2 * (a + b) + p) / (2 * u) := by
    field_simp
  have hexact : toRat x + toRat y + 2 ^ ((Nat.clog 2 n : ℤ) - 54) =
      ((2 * (value x + value y) + (2 ^ (Nat.clog 2 n + 1021) : Nat) : ℤ) : ℚ) / (2 * one) := by
    rw [two_zpow_sub_eq, toRat, toRat, hdiv _ _ _ (Nat.cast_ne_zero.mpr Binary64.one_pos.ne')]
    push_cast
    rfl
  have hscaled : (n : ℚ) * (2 * one) = ((2 * ((n * one : Nat) : ℤ) : ℤ) : ℚ) := by
    push_cast
    exact mul_left_comm _ _ _
  rw [le_toNat_toUInt64_iff hsum hpos (by omega), hunits, hexact, lt_div_iff₀ hone, hscaled,
    Int.cast_lt]

end Toolpath.Binary64
