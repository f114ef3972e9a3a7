import Mathlib.Tactic.Ring
import Toolpath.Proofs.Number.Whole

/-! # The middle between two doubles

Half of the way from a finite double to a larger one is added to the first. The
way is rounded, and so is its half, but the half never comes to more than the
exact way, so that the middle lies between the two doubles. Only a way that is
too long for a finite double has no middle: it is infinite, and so is what comes
of it.
-/

namespace Toolpath.Binary64

open Float.Model UnpackedFloat Number

variable {x y low high : Float}

/-! ## Halves -/

theorem units_half : units (magnitude 0.5) * 2 = one := by decide +kernel

/-- Half of a number of units that was rounded is not more than the number was before. -/
theorem units_round_half_le {n : Nat} (h : round n 1 < infinity) :
    units (round (units (round n 1)) 2) ≤ n := by
  obtain ⟨k, hk⟩ : ∃ k, k = 2044 := ⟨_, rfl⟩
  by_cases hzero : n = 0
  · rw [hzero, round_zero Nat.one_pos, units_zero, round_zero two_pos, units_zero]
  have hlog : n.log2 ≤ k + 53 := by
    have hlt : n < 2 ^ (54 + k) := by
      calc n
        _ < (2 ^ 54 - 1) * 2 ^ k := (round_lt_infinity_iff hk).mp h
        _ ≤ 2 ^ 54 * 2 ^ k := Nat.mul_le_mul_right _ (by decide)
        _ = 2 ^ (54 + k) := (Nat.pow_add ..).symm
    have := (Nat.log2_lt hzero).mpr hlt
    omega
  -- The rounded number is at most twice the power of two in front of the exact one.
  have hdouble : units (round n 1) ≤ 2 ^ n.log2 * 2 := by
    rcases Nat.lt_or_eq_of_le hlog with hlt | heq
    · rw [← Nat.pow_succ]
      refine (isExact_two_pow (by omega)).units_round_le Nat.one_pos ?_
      rw [Nat.mul_one]
      exact Nat.le_of_lt Nat.lt_log2_self
    · calc units (round n 1)
        _ ≤ (2 ^ 53 - 1) * 2 ^ (k + 1) := units_le h (by omega)
        _ ≤ 2 ^ 53 * 2 ^ (k + 1) := Nat.mul_le_mul_right _ (by decide)
        _ = 2 ^ n.log2 * 2 := by
            rw [heq, ← Nat.pow_add, ← Nat.pow_succ]
            congr 1
            omega
  exact Nat.le_trans ((isExact_two_pow (by omega)).units_round_le two_pos hdouble)
    (Nat.log2_self_le hzero)

theorem magnitude_half (hx : x.isFinite = true) :
    magnitude (x * 0.5) = round (units (magnitude x)) 2 := by
  rw [magnitude_mul hx (by decide)]
  refine round_eq_round one_pos two_pos ?_
  rw [Nat.mul_assoc, units_half]

theorem isFinite_half (hx : x.isFinite = true) : (x * 0.5).isFinite = true := by
  have hle : magnitude (x * 0.5) ≤ magnitude x :=
    magnitude_mul_le hx (by decide) (by decide)
  exact isFinite_iff.mpr (Nat.lt_of_le_of_lt hle (magnitude_lt_infinity hx))

theorem value_half_nonneg (hx : x.isFinite = true) (h : 0 ≤ value x) : 0 ≤ value (x * 0.5) := by
  have hhalf : (0.5 : Float).isFinite = true := by decide
  have hsign : isNegative 0.5 = false := by decide
  rw [mul_eq hx hhalf, value_ofMagnitude _ (round_le_infinity _ _), hsign, Bool.xor_false]
  cases hnegative : isNegative x with
  | false => exact Int.natCast_nonneg _
  | true =>
      have hzero : units (magnitude x) = 0 := by
        have hle := value_nonpos_of_isNegative hnegative
        rw [← natAbs_value]
        omega
      rw [hzero, Nat.zero_mul, round_zero one_pos, signedUnits_zero]

/-! ## The way from one double to another -/

/-- Whether the exact way between two doubles is so short that it is rounded to a finite one: it is
less than the middle between the largest finite double and the power of two behind it. -/
def InReach (low high : Float) : Prop :=
  toRat high - toRat low < 2 ^ 1024 - 2 ^ 970

/-- The shortest way that is out of reach, in units; the powers are variables so that they are not
computed. -/
theorem two_pow_sub_two_pow {i k : Nat} (hi : i = 970) (hk : k = 2044) :
    (2 : ℚ) ^ (i + 54) - 2 ^ i = ((2 ^ 54 - 1) * 2 ^ k : Nat) / one := by
  obtain ⟨m, hm⟩ : ∃ m, m = 1074 := ⟨_, rfl⟩
  have hsplit : k = i + m := by omega
  rw [eq_div_iff (Nat.cast_ne_zero.mpr one_pos.ne'), ← two_pow_eq_one hm, hsplit]
  push_cast
  ring

section Way

variable (hlow : low.isFinite = true) (hhigh : high.isFinite = true)

include hlow hhigh

theorem isFinite_sub_iff (hle : value low ≤ value high) :
    (high - low).isFinite = true ↔ InReach low high := by
  obtain ⟨k, hk⟩ : ∃ k, k = 2044 := ⟨_, rfl⟩
  have hone : (0 : ℚ) < one := Nat.cast_pos.mpr one_pos
  have hway : ((value high : ℚ) - value low) = ((value high - value low).natAbs : Nat) := by
    rw [← Int.cast_sub, ← Int.cast_natCast, Int.natAbs_of_nonneg (by omega)]
  rw [isFinite_iff, magnitude_sub hhigh hlow, round_lt_infinity_iff hk, InReach, toRat, toRat,
    ← sub_div, hway, two_pow_sub_two_pow (i := 970) rfl hk, div_lt_div_iff_of_pos_right hone,
    Nat.cast_lt]

theorem value_sub_nonneg (hle : value low ≤ value high) : 0 ≤ value (high - low) := by
  rw [value_sub hhigh hlow, nearest_of_nonneg (by omega)]
  exact Int.natCast_nonneg _

/-- Half of the way does not lead beyond its end. -/
theorem value_add_half_le (hle : value low ≤ value high) (hway : (high - low).isFinite = true) :
    value low + value ((high - low) * 0.5) ≤ value high := by
  have hmagnitude := magnitude_sub hhigh hlow
  have hround : round (value high - value low).natAbs 1 < infinity := by
    rw [← hmagnitude]
    exact magnitude_lt_infinity hway
  have hhalf := units_round_half_le hround
  rw [← hmagnitude, ← magnitude_half hway, ← natAbs_value] at hhalf
  omega

theorem sub_eq_positiveInfinity (hle : value low ≤ value high)
    (hway : (high - low).isFinite ≠ true) : high - low = positiveInfinity := by
  have hmagnitude : magnitude (high - low) = infinity := by
    refine Nat.le_antisymm ?_ (Nat.le_of_not_lt (mt isFinite_iff.mpr hway))
    rw [magnitude_sub hhigh hlow]
    exact round_le_infinity _ _
  have hsign : isNegative (high - low) = false := by
    refine Bool.eq_false_iff.mpr fun hnegative => ?_
    have hnonneg := value_sub_nonneg hlow hhigh hle
    have hneg : signedUnits true infinity < 0 := (signedUnits_neg_iff _ (by decide)).mpr rfl
    rw [value, hnegative, hmagnitude] at hnonneg
    exact absurd hnonneg (Int.not_le.mpr hneg)
  rw [← ofMagnitude_magnitude (high - low), hsign, hmagnitude]
  rfl

end Way

/-! ## The middle -/

theorem half_positiveInfinity : positiveInfinity * 0.5 = positiveInfinity := by decide

theorem add_positiveInfinity (hx : x.isFinite = true) :
    x + positiveInfinity = positiveInfinity := by
  have hsum : UnpackedFloat.add Format.binary64 x.toModel.unpack (.infinity .positive) =
      .infinity .positive := by
    obtain ⟨s, hx⟩ | ⟨s, m, e, hm, hx⟩ := unpack_of_isFinite hx
    · rw [hx]
      rfl
    · rw [hx]
      rfl
  exact congrArg (fun u => Float.ofModel (Float.Model.pack u)) hsum

/-- How the way between two doubles and the middle of it stand to the two when they are computed.
What may fail fails only where the exact way is out of reach, and always there. -/
structure Spans (low high way middle : Float) : Prop where
  nonneg : 0.0 ≤ way
  low_le : low ≤ middle
  isFinite_way : way.isFinite = true ↔ InReach low high
  isFinite_middle : middle.isFinite = true ↔ InReach low high
  le_high : middle ≤ high ↔ InReach low high

/-- The way from a finite double to one that is not smaller, and the middle of it. -/
theorem spans_of_le (hlow : low.isFinite = true) (hhigh : high.isFinite = true) (h : low ≤ high) :
    Spans low high (high - low) (low + (high - low) * 0.5) := by
  have hle := (le_iff_value_le hlow hhigh).mp h
  have hiff := isFinite_sub_iff hlow hhigh hle
  by_cases hway : (high - low).isFinite = true
  · have hnonneg := value_sub_nonneg hlow hhigh hle
    have hhalf := value_half_nonneg hway hnonneg
    obtain ⟨hfinite, hbelow, habove⟩ := add_mem_between hlow (isFinite_half hway) hlow hhigh
      (by omega) (value_add_half_le hlow hhigh hle hway)
    have hzero : (0.0 : Float) ≤ high - low := by
      rw [le_iff_value_le (by decide) hway]
      exact hnonneg
    have hshort := hiff.mp hway
    exact ⟨hzero, hbelow, hiff, iff_of_true hfinite hshort, iff_of_true habove hshort⟩
  · have hinfinite := sub_eq_positiveInfinity hlow hhigh hle hway
    have hmiddle : low + (high - low) * 0.5 = positiveInfinity := by
      rw [hinfinite, half_positiveInfinity, add_positiveInfinity hlow]
    have hlong := mt hiff.mpr hway
    have hnot : ¬positiveInfinity ≤ high := fun hle =>
      Number.lt_irrefl _ (lt_of_le_of_lt hle (lt_positiveInfinity hhigh))
    rw [hmiddle, hinfinite]
    rw [hinfinite] at hiff hway
    exact ⟨le_of_lt (lt_positiveInfinity (by decide)), le_of_lt (lt_positiveInfinity hlow),
      hiff, iff_of_false hway hlong, iff_of_false hnot hlong⟩

end Toolpath.Binary64
