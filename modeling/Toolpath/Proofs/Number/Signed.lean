import Toolpath.Proofs.Number.Order
import Toolpath.Proofs.Number.Overflow

/-! # Signed numbers of units

A finite double stands for a whole number of units, and the order of finite
doubles is the order of these numbers. The double nearest to a whole number of
units does not go down when the number goes up, so a sum that lies between two
finite doubles is rounded to one that does.
-/

namespace Toolpath.Binary64

open Float.Model Number

variable {x y a b : Float}

/-! ## The order -/

/-- Patterns are in the order of their scales, and of their significands on the same scale. -/
theorem scale_lex_iff (m n : Nat) :
    scale m < scale n ∨ scale m = scale n ∧ significand m ≤ significand n ↔ m ≤ n := by
  have hm := scale_mul_binade_add m
  have hn := scale_mul_binade_add n
  have hm' := significand_lt m
  have hn' := significand_lt n
  have hfull := scale_eq_zero_or m
  have hfull' := scale_eq_zero_or n
  simp only [binade] at hm hn
  omega

/-- The places of positive doubles in the order, and those of negative ones. -/
theorem toLex_scale_le_iff {m n : Nat} (hm : m < infinity) (hn : n < infinity) :
    (toLex ((scale m : ℤ) - 1074, (significand m : ℤ)) ≤
        toLex ((scale n : ℤ) - 1074, (significand n : ℤ)) ↔ units m ≤ units n) ∧
      (toLex (-((scale n : ℤ) - 1074), -(significand n : ℤ)) ≤
        toLex (-((scale m : ℤ) - 1074), -(significand m : ℤ)) ↔ units m ≤ units n) := by
  have hunits : units m ≤ units n ↔ m ≤ n := by
    refine ⟨fun hle => Nat.le_of_not_lt fun hlt => ?_, fun hle => units_le_units hle hn⟩
    exact Nat.not_lt.mpr hle (units_lt_units hlt hm)
  rw [hunits, ← scale_lex_iff, Prod.Lex.toLex_le_toLex, Prod.Lex.toLex_le_toLex]
  constructor <;> omega

theorem rank_zero (negative : Bool) : unpackedRank (decoded negative 0) = toLex (0, toLex (0, 0)) :=
  rfl

theorem rank_negative {bits : Nat} (h : bits ≠ 0) :
    unpackedRank (decoded true bits) =
      toLex (-1, toLex (-((scale bits : ℤ) - 1074), -(significand bits : ℤ))) := by
  rw [decoded_eq_finite true h]
  rfl

theorem rank_positive {bits : Nat} (h : bits ≠ 0) :
    unpackedRank (decoded false bits) =
      toLex (1, toLex ((scale bits : ℤ) - 1074, (significand bits : ℤ))) := by
  rw [decoded_eq_finite false h]
  rfl

/-- Decoded patterns are in the order of the numbers of units they stand for. -/
theorem rank_le_rank_iff (negative negative' : Bool) {m n : Nat} (hm : m < infinity)
    (hn : n < infinity) :
    unpackedRank (decoded negative m) ≤ unpackedRank (decoded negative' n) ↔
      signedUnits negative m ≤ signedUnits negative' n := by
  by_cases hzero : m = 0 <;> by_cases hzero' : n = 0
  · rw [hzero, hzero', rank_zero, rank_zero, signedUnits_zero, signedUnits_zero]
    exact iff_of_true (Preorder.le_refl _) (Int.le_refl 0)
  · rw [hzero, rank_zero, signedUnits_zero]
    cases negative' with
    | false => simp [rank_positive hzero', signedUnits, Prod.Lex.toLex_le_toLex]
    | true => simpa [rank_negative hzero', signedUnits, Prod.Lex.toLex_le_toLex] using
        (units_pos hzero').ne'
  · rw [hzero', rank_zero, signedUnits_zero]
    cases negative with
    | false => simpa [rank_positive hzero, signedUnits, Prod.Lex.toLex_le_toLex] using
        (units_pos hzero).ne'
    | true => simp [rank_negative hzero, signedUnits, Prod.Lex.toLex_le_toLex]
  · cases negative <;> cases negative'
    · rw [rank_positive hzero, rank_positive hzero', Prod.Lex.toLex_le_toLex]
      simpa [signedUnits] using (toLex_scale_le_iff hm hn).1
    · rw [rank_positive hzero, rank_negative hzero', Prod.Lex.toLex_le_toLex]
      have hlt : -(units n : ℤ) < units m := by
        have hpos := units_pos hzero
        omega
      simpa [signedUnits] using hlt
    · rw [rank_negative hzero, rank_positive hzero', Prod.Lex.toLex_le_toLex]
      simp [signedUnits]
    · rw [rank_negative hzero, rank_negative hzero', Prod.Lex.toLex_le_toLex]
      simpa [signedUnits] using (toLex_scale_le_iff hn hm).2

/-- Finite doubles are in the order of the numbers of units they stand for. -/
theorem le_iff_value_le (hx : x.isFinite = true) (hy : y.isFinite = true) :
    x ≤ y ↔ value x ≤ value y := by
  have hrank : rank x ≤ rank y ↔ value x ≤ value y := by
    rw [rank, rank, unpack_eq_decoded hx, unpack_eq_decoded hy]
    exact rank_le_rank_iff _ _ (magnitude_lt_infinity hx) (magnitude_lt_infinity hy)
  rw [le_iff, hrank]
  exact ⟨fun h => h.2.2, fun h => ⟨isNaN_of_isFinite hx, isNaN_of_isFinite hy, h⟩⟩

/-! ## The nearest double -/

/-- The number of units of the double nearest to a whole number of units. -/
def nearest (n : ℤ) : ℤ :=
  signedUnits (decide (n < 0)) (round n.natAbs 1)

theorem value_ofMagnitude (negative : Bool) {bits : Nat} (h : bits ≤ infinity) :
    value (ofMagnitude negative bits) = signedUnits negative bits := by
  rw [value, magnitude_ofMagnitude negative h, isNegative_ofMagnitude negative h]

/-- The sign of zero makes no difference. -/
theorem value_ofMagnitude_or {n : ℤ} {zero : Bool} (h : zero = true → n ≤ 0) :
    value (ofMagnitude (decide (n < 0) || zero) (round n.natAbs 1)) = nearest n := by
  rw [value_ofMagnitude _ (round_le_infinity _ _), nearest]
  cases zero with
  | false => rw [Bool.or_false]
  | true =>
      rcases Int.lt_or_eq_of_le (h rfl) with hneg | rfl
      · rw [decide_eq_true hneg, Bool.true_or]
      · rw [Int.natAbs_zero, round_zero Nat.one_pos, signedUnits_zero, signedUnits_zero]

theorem value_nonpos_of_isNegative (h : isNegative x = true) : value x ≤ 0 := by
  rw [value, h]
  exact Int.neg_nonpos_of_nonneg (Int.natCast_nonneg _)

theorem value_nonneg_of_not_isNegative (h : isNegative x = false) : 0 ≤ value x := by
  rw [value, h]
  exact Int.natCast_nonneg _

theorem value_add (hx : x.isFinite = true) (hy : y.isFinite = true) :
    value (x + y) = nearest (value x + value y) := by
  rw [add_eq hx hy]
  refine value_ofMagnitude_or fun hzero => ?_
  obtain ⟨hx, hy⟩ := Bool.and_eq_true_iff.mp hzero
  exact Int.add_nonpos (value_nonpos_of_isNegative hx) (value_nonpos_of_isNegative hy)

theorem value_sub (hx : x.isFinite = true) (hy : y.isFinite = true) :
    value (x - y) = nearest (value x - value y) := by
  rw [sub_eq hx hy]
  refine value_ofMagnitude_or fun hzero => ?_
  obtain ⟨hx, hy⟩ := Bool.and_eq_true_iff.mp hzero
  have hle := value_nonpos_of_isNegative hx
  have hge := value_nonneg_of_not_isNegative (Bool.not_eq_true' _ ▸ hy)
  omega

/-- A finite double is the nearest one to what it stands for. -/
theorem nearest_value (hx : x.isFinite = true) : nearest (value x) = value x := by
  rw [nearest, natAbs_value, round_units (magnitude_lt_infinity hx), value]
  by_cases hzero : magnitude x = 0
  · rw [hzero, signedUnits_zero, signedUnits_zero]
  · have hsign : decide (signedUnits (isNegative x) (magnitude x) < 0) = isNegative x := by
      rw [Bool.eq_iff_iff, decide_eq_true_iff]
      exact signedUnits_neg_iff _ hzero
    rw [hsign]

theorem nearest_of_nonneg {n : ℤ} (h : 0 ≤ n) : nearest n = units (round n.natAbs 1) := by
  rw [nearest, decide_eq_false (Int.not_lt.mpr h), signedUnits, if_neg Bool.false_ne_true]

theorem nearest_of_neg {n : ℤ} (h : n < 0) : nearest n = -units (round n.natAbs 1) := by
  rw [nearest, decide_eq_true h, signedUnits, if_pos rfl]

/-- The nearest double does not go down when the number goes up. -/
theorem nearest_le_nearest {m n : ℤ} (h : m ≤ n) (hm : round m.natAbs 1 < infinity)
    (hn : round n.natAbs 1 < infinity) : nearest m ≤ nearest n := by
  have hround {i j : ℤ} (hle : i.natAbs ≤ j.natAbs) (hj : round j.natAbs 1 < infinity) :
      (units (round i.natAbs 1) : ℤ) ≤ units (round j.natAbs 1) :=
    Int.ofNat_le.mpr (units_le_units (round_le_round_of_le hle) hj)
  rcases Int.lt_or_le m 0 with hneg | hpos
  · rw [nearest_of_neg hneg]
    rcases Int.lt_or_le n 0 with hneg' | hpos'
    · rw [nearest_of_neg hneg']
      exact Int.neg_le_neg (hround (by omega) hm)
    · rw [nearest_of_nonneg hpos']
      omega
  · rw [nearest_of_nonneg hpos, nearest_of_nonneg (Int.le_trans hpos h)]
    exact hround (by omega) hn

/-- A sum between two finite doubles is rounded to a double between them. -/
theorem add_mem_between (hx : x.isFinite = true) (hy : y.isFinite = true)
    (ha : a.isFinite = true) (hb : b.isFinite = true) (hlow : value a ≤ value x + value y)
    (hhigh : value x + value y ≤ value b) :
    (x + y).isFinite = true ∧ a ≤ x + y ∧ x + y ≤ b := by
  have hround {z : Float} (hz : z.isFinite = true) : round (value z).natAbs 1 < infinity := by
    rw [natAbs_value, round_units (magnitude_lt_infinity hz)]
    exact magnitude_lt_infinity hz
  have hsum : round (value x + value y).natAbs 1 < infinity := by
    rcases Int.lt_or_le (value x + value y) 0 with hneg | hpos
    · exact Nat.lt_of_le_of_lt (round_le_round_of_le (by omega)) (hround ha)
    · exact Nat.lt_of_le_of_lt (round_le_round_of_le (by omega)) (hround hb)
  have hfinite : (x + y).isFinite = true := by
    rwa [isFinite_iff, magnitude_add hx hy]
  refine ⟨hfinite, ?_, ?_⟩
  · rw [le_iff_value_le ha hfinite, value_add hx hy, ← nearest_value ha]
    exact nearest_le_nearest hlow (hround ha) hsum
  · rw [le_iff_value_le hfinite hb, value_add hx hy, ← nearest_value hb]
    exact nearest_le_nearest hhigh hsum (hround hb)

end Toolpath.Binary64
