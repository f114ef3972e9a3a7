import Toolpath.Number.Rounding
import Toolpath.Proofs.Number.Overflow

/-! # Exact doubles

A whole number below `2 ^ 53` is a double, and so is a power of ten up to
`10 ^ 22`, whose odd factor is as small. A product or a quotient of such doubles
is the double nearest to the exact one. So what is rounded to places is the
double nearest to a decimal with as many.
-/

namespace Toolpath.Binary64

/-- Whether a number of units is that of a finite double. -/
def IsExact (n : Nat) : Prop :=
  ∃ bits < infinity, units bits = n

theorem units_of_lt {bits : Nat} (h : bits < 2 * binade) : units bits = bits := by
  have hscale : scale bits = 0 := by
    have hquot : bits / binade < 2 := (Nat.div_lt_iff_lt_mul (by decide)).mpr h
    rw [scale]
    omega
  have hsignificand : significand bits = bits := by
    rw [significand]
    split
    next => rfl
    next hlarge =>
      simp only [binade] at h hlarge ⊢
      omega
  rw [units, hscale, hsignificand]
  exact Nat.mul_one bits

theorem units_normal {m : Nat} (hlow : 2 ^ 52 ≤ m) (hhigh : m < 2 ^ 53) (k : Nat) :
    units (k * binade + m) = m * 2 ^ k := by
  have hscale : scale (k * binade + m) = k := by
    simp only [scale, binade]
    omega
  have hsignificand : significand (k * binade + m) = m := by
    rw [significand, if_neg]
    · simp only [binade]
      omega
    · simp only [binade]
      omega
  rw [units, hscale, hsignificand]
  rfl

/-- A significand of at most 53 bits has a pattern with every power of two up to the largest. -/
theorem isExact_mul_two_pow {m k : Nat} (hm : m < 2 ^ 53) (hk : k ≤ 2045) :
    IsExact (m * 2 ^ k) := by
  by_cases hsmall : m * 2 ^ k < 2 * binade
  · exact ⟨_, Nat.lt_trans hsmall (by decide), units_of_lt hsmall⟩
  have hne : m ≠ 0 := by
    rintro rfl
    exact hsmall (by rw [Nat.zero_mul]; decide)
  have hlog : m.log2 < 53 := (Nat.log2_lt hne).mpr hm
  obtain ⟨s, hs⟩ : ∃ s, s + m.log2 = 52 := ⟨52 - m.log2, by omega⟩
  have hle : s ≤ k := by
    refine Nat.le_of_not_lt fun hlt => hsmall ?_
    calc m * 2 ^ k
      _ < 2 ^ (m.log2 + 1) * 2 ^ k :=
          Nat.mul_lt_mul_of_pos_right Nat.lt_log2_self (Nat.two_pow_pos k)
      _ = 2 ^ (m.log2 + 1 + k) := (Nat.pow_add ..).symm
      _ ≤ 2 ^ 53 := Nat.pow_le_pow_right (by decide) (by omega)
  -- The significand is made as long as those of normal doubles.
  have hlong : m * 2 ^ s ≠ 0 := Nat.mul_ne_zero hne (Nat.ne_of_gt (Nat.two_pow_pos s))
  have hfull : (m * 2 ^ s).log2 = 52 := (log2_mul_pow hne s).trans (by omega)
  obtain ⟨hlow, hhigh⟩ := (Nat.log2_eq_iff hlong).mp hfull
  refine ⟨(k - s) * binade + m * 2 ^ s, ?_, ?_⟩
  · simp only [infinity, binade]
    omega
  · rw [units_normal hlow hhigh, Nat.mul_assoc, ← Nat.pow_add, Nat.add_sub_cancel' hle]

theorem isExact_two_pow {n : Nat} (h : n ≤ 2097) : IsExact (2 ^ n) := by
  have hsplit : 2 ^ n = 2 ^ (n - (n - 52)) * 2 ^ (n - 52) := by
    rw [← Nat.pow_add, Nat.sub_add_cancel (Nat.sub_le ..)]
  rw [hsplit]
  exact isExact_mul_two_pow (Nat.pow_lt_pow_right (by decide) (by omega)) (by omega)

theorem isExact_whole {n : Nat} (h : n < 2 ^ 53) : IsExact (n * one) := by
  obtain ⟨k, hk⟩ : ∃ k, k = 1074 := ⟨_, rfl⟩
  rw [← two_pow_eq_one hk]
  exact isExact_mul_two_pow h (by omega)

theorem isExact_ten_pow {n : Nat} (h : n ≤ 22) : IsExact (10 ^ n * one) := by
  obtain ⟨k, hk⟩ : ∃ k, k = 1074 := ⟨_, rfl⟩
  have hodd : 5 ^ n < 2 ^ 53 :=
    Nat.lt_of_le_of_lt (Nat.pow_le_pow_right (by decide) h) (by decide : 5 ^ 22 < 2 ^ 53)
  have hsplit : 10 ^ n * one = 5 ^ n * 2 ^ (n + k) := by
    rw [← two_pow_eq_one hk, Nat.pow_add, ← Nat.mul_assoc, ← Nat.mul_pow]
  rw [hsplit]
  exact isExact_mul_two_pow hodd (by omega)

/-! ## Operations -/

/-- The double nearest to a number of units. -/
def ofUnits (n : Nat) : Float :=
  ofMagnitude false (round n 1)

theorem toFloat_eq_ofUnits {n : Nat} (h : n < 2 ^ 53) : n.toUInt64.toFloat = ofUnits (n * one) := by
  have hword : n.toUInt64.toNat = n := by
    rw [Nat.toUInt64, UInt64.toNat_ofNat']
    omega
  rw [toFloat_eq, hword]
  rfl

theorem magnitude_natCast (negative : Bool) (coefficient n : Nat) :
    (Decimal.mk negative coefficient n).magnitude = round (coefficient * 10 ^ n * one) 1 := by
  have hexact := Decimal.magnitude_eq_round ⟨negative, coefficient, n⟩ 0 (Int.natCast_nonneg n)
  rwa [Nat.pow_zero] at hexact

theorem magnitude_neg_natCast (negative : Bool) (coefficient n : Nat) :
    (Decimal.mk negative coefficient (-n)).magnitude = round (coefficient * one) (10 ^ n) := by
  have hnone : -(n : Int) + n = 0 := Int.add_left_neg _
  have hexact := Decimal.magnitude_eq_round ⟨negative, coefficient, -n⟩ n (Int.le_of_eq hnone.symm)
  rw [hexact]
  dsimp only
  rw [hnone, Int.toNat_zero, Nat.pow_zero, Nat.mul_one]

theorem powerOfTen_eq_ofUnits {n : Nat} (h : n ≤ 22) :
    Number.powerOfTen n = ofUnits (10 ^ n * one) := by
  rw [Number.powerOfTen_eq_toFloat (by omega), Decimal.toFloat, magnitude_natCast, Nat.one_mul]
  rfl

variable {m n : Nat}

theorem magnitude_ofUnits (n : Nat) : magnitude (ofUnits n) = round n 1 :=
  magnitude_ofMagnitude _ (round_le_infinity _ _)

theorem isNegative_ofUnits (n : Nat) : isNegative (ofUnits n) = false :=
  isNegative_ofMagnitude _ (round_le_infinity _ _)

theorem IsExact.round_lt (h : IsExact n) : round n 1 < infinity := by
  obtain ⟨bits, hlt, rfl⟩ := h
  rwa [round_units hlt]

theorem IsExact.isFinite (h : IsExact n) : (ofUnits n).isFinite = true := by
  rw [isFinite_iff, magnitude_ofUnits]
  exact h.round_lt

theorem IsExact.units_magnitude (h : IsExact n) : units (magnitude (ofUnits n)) = n := by
  obtain ⟨bits, hlt, rfl⟩ := h
  rw [magnitude_ofUnits, round_units hlt]

/-- What is not beyond a double is not rounded beyond it. -/
theorem IsExact.units_round_le (h : IsExact m) {num den : Nat} (hden : 0 < den)
    (hle : num ≤ m * den) : units (round num den) ≤ m := by
  obtain ⟨bits, hlt, rfl⟩ := h
  have hround : round num den ≤ bits := by
    calc round num den
      _ ≤ round (units bits) 1 := round_le_round hden Nat.one_pos (by rwa [Nat.mul_one])
      _ = bits := round_units hlt
  exact units_le_units hround hlt

theorem IsExact.magnitude_ne_zero (h : IsExact n) (hpos : 0 < n) : magnitude (ofUnits n) ≠ 0 := by
  intro hzero
  have hunits := h.units_magnitude
  rw [hzero, units_zero] at hunits
  exact Nat.ne_of_gt hpos hunits.symm

/-- A product with a power of ten is rounded once. -/
theorem mul_powerOfTen {x : Float} (hx : x.isFinite = true) (hn : n ≤ 22) :
    x * Number.powerOfTen n =
      ofMagnitude (isNegative x) (round (units (magnitude x) * 10 ^ n) 1) := by
  have hpower := isExact_ten_pow hn
  rw [powerOfTen_eq_ofUnits hn, mul_eq hx hpower.isFinite, hpower.units_magnitude,
    isNegative_ofUnits, Bool.xor_false]
  refine congrArg _ (round_eq_round one_pos Nat.one_pos ?_)
  rw [Nat.mul_one, Nat.mul_assoc]

/-- A quotient by a power of ten is rounded once. -/
theorem div_powerOfTen {x : Float} (hx : x.isFinite = true) (hn : n ≤ 22) :
    x / Number.powerOfTen n =
      ofMagnitude (isNegative x) (round (units (magnitude x)) (10 ^ n)) := by
  have hpos : 0 < 10 ^ n * one := Nat.mul_pos (Decimal.ten_pow_pos n) one_pos
  have hpower := isExact_ten_pow hn
  rw [powerOfTen_eq_ofUnits hn, div_eq hx hpower.isFinite (hpower.magnitude_ne_zero hpos),
    hpower.units_magnitude, isNegative_ofUnits, Bool.xor_false]
  refine congrArg _ (round_eq_round hpos (Decimal.ten_pow_pos n) ?_)
  rw [Nat.mul_assoc, Nat.mul_comm one]

/-- A decimal with a small coefficient and a small exponent is not beyond the finite doubles. -/
theorem magnitude_lt_of_exponent_le {d : Decimal} (hcoefficient : d.coefficient < 2 ^ 53)
    (h : d.exponent ≤ 22) : d.magnitude < infinity := by
  obtain ⟨k, hk⟩ : ∃ k, k = 1074 := ⟨_, rfl⟩
  have hlarge : d.coefficient * 10 ^ 22 < 2 ^ 127 :=
    calc d.coefficient * 10 ^ 22
      _ < 2 ^ 53 * 10 ^ 22 := Nat.mul_lt_mul_of_pos_right hcoefficient (Decimal.ten_pow_pos 22)
      _ < 2 ^ 127 := by decide
  rw [Decimal.magnitude_eq_round d (-d.exponent).toNat (by omega)]
  generalize hup : (d.exponent + (-d.exponent).toNat).toNat = up
  calc round (d.coefficient * 10 ^ up * one) (10 ^ (-d.exponent).toNat)
    _ ≤ round (d.coefficient * 10 ^ 22 * one) 1 := by
        refine round_le_round (Decimal.ten_pow_pos _) Nat.one_pos ?_
        rw [Nat.mul_one]
        have hpow : d.coefficient * 10 ^ up ≤ d.coefficient * 10 ^ 22 :=
          Nat.mul_le_mul_left _ (Nat.pow_le_pow_right (by decide) (by omega))
        exact Nat.le_trans (Nat.mul_le_mul_right _ hpow)
          (Nat.le_mul_of_pos_right _ (Decimal.ten_pow_pos _))
    _ < infinity := by
        refine round_lt_infinity (k := k + 970) (by omega) ?_
        calc d.coefficient * 10 ^ 22 * one
          _ < 2 ^ 127 * one := Nat.mul_lt_mul_of_pos_right hlarge one_pos
          _ = 2 ^ (127 + k) := Decimal.two_pow_mul_one hk 127
          _ ≤ 2 ^ (k + 970) := Nat.pow_le_pow_right (by decide) (by omega)
          _ ≤ (2 ^ 54 - 1) * 2 ^ (k + 970) := Nat.le_mul_of_pos_left _ (by decide)

/-! ## Rounding to places -/

open Number

theorem units_le_of_le_round {bits n : Nat} (hn : n < 2 ^ 53) (h : bits ≤ round (n * one) 1) :
    units bits ≤ n * one := by
  have hexact := isExact_whole hn
  exact Nat.le_trans (units_le_units h hexact.round_lt)
    (hexact.units_round_le Nat.one_pos (Nat.le_of_eq (Nat.mul_one _).symm))

/-- Rounding to a whole number keeps bounds that are whole. -/
theorem exists_roundWhole {x : Float} {n : Nat} (hn : n ≤ 2 ^ 47)
    (h : magnitude x ≤ round (n * one) 1) :
    ∃ m ≤ n, roundWhole x = ofMagnitude (isNegative x) (round (m * one) 1) := by
  have hlarge : round (n * one) 1 < 1075 * binade :=
    calc round (n * one) 1
      _ ≤ round (2 ^ 47 * one) 1 := round_le_round_of_le (Nat.mul_le_mul_right _ hn)
      _ = wholePattern (2 ^ 47) := (wholePattern_eq_round (by decide)).symm
      _ < 1075 * binade := by decide
  have hbits : magnitude x < 1075 * binade := Nat.lt_of_le_of_lt h hlarge
  have hunits := units_le_of_le_round (Nat.lt_of_le_of_lt hn (by decide)) h
  have hle : nearestWhole (magnitude x) ≤ n := by
    rw [nearestWhole_eq hbits]
    have hone := one_pos
    generalize one = unit at hunits hone ⊢
    refine Nat.le_of_lt_succ ((Nat.div_lt_iff_lt_mul (Nat.mul_pos (by decide) hone)).mpr ?_)
    calc 2 * units (magnitude x) + unit
      _ < 2 * (n * unit) + 2 * unit := by omega
      _ = (n + 1) * (2 * unit) := by rw [Nat.succ_mul n, Nat.mul_left_comm n]
  refine ⟨nearestWhole (magnitude x), hle, ?_⟩
  have hsmall : nearestWhole (magnitude x) < 2 * binade :=
    Nat.lt_of_le_of_lt (Nat.le_trans hle hn) (by decide)
  rw [roundWhole, if_neg (Nat.not_le.mpr hbits), wholePattern_eq_round hsmall]

theorem roundTo_eq {x : Float} {places : Nat} (hx : x.isFinite = true)
    (h : (x * powerOfTen (min places maxPlaces)).isFinite = true) :
    roundTo x places =
      roundWhole (x * powerOfTen (min places maxPlaces)) / powerOfTen (min places maxPlaces) := by
  simp [roundTo, hx, h]

/-- A double that is rounded to places is the one nearest to a decimal with as many. -/
theorem exists_roundTo {x : Float} (hx : x.isFinite = true) (places : Nat) {n : Nat}
    (hn : n ≤ 2 ^ 47) (h : units (magnitude x) * 10 ^ min places maxPlaces ≤ n * one) :
    ∃ m ≤ n, roundTo x places =
      (Decimal.mk (isNegative x) m (-(min places maxPlaces : Nat))).toFloat := by
  have hplaces : min places maxPlaces ≤ 22 := Nat.le_trans (Nat.min_le_right ..) (by decide)
  have hrounded : (x * powerOfTen (min places maxPlaces)).isFinite = true →
      roundTo x places = _ := roundTo_eq hx
  generalize min places maxPlaces = p at h hplaces hrounded ⊢
  have hscaled := mul_powerOfTen hx hplaces
  have hle : round (units (magnitude x) * 10 ^ p) 1 ≤ round (n * one) 1 := round_le_round_of_le h
  have hlt := Nat.lt_of_le_of_lt hle (isExact_whole (Nat.lt_of_le_of_lt hn (by decide))).round_lt
  generalize round (units (magnitude x) * 10 ^ p) 1 = bits at hscaled hle hlt
  have hmagnitude : magnitude (ofMagnitude (isNegative x) bits) = bits :=
    magnitude_ofMagnitude _ (Nat.le_of_lt hlt)
  have hsign : isNegative (ofMagnitude (isNegative x) bits) = isNegative x :=
    isNegative_ofMagnitude _ (Nat.le_of_lt hlt)
  have hfinite : (ofMagnitude (isNegative x) bits).isFinite = true :=
    (isFinite_ofMagnitude_iff _ (Nat.le_of_lt hlt)).mpr hlt
  obtain ⟨m, hm, hwhole⟩ := exists_roundWhole hn (hmagnitude.symm ▸ hle)
  have hexact := isExact_whole (n := m) (by omega)
  have hunits := hexact.units_magnitude
  rw [magnitude_ofUnits] at hunits
  have hbound := Nat.le_of_lt hexact.round_lt
  refine ⟨m, hm, ?_⟩
  rw [hscaled] at hrounded
  rw [hrounded hfinite, hwhole, hsign,
    div_powerOfTen ((isFinite_ofMagnitude_iff _ hbound).mpr hexact.round_lt) hplaces,
    magnitude_ofMagnitude _ hbound, isNegative_ofMagnitude _ hbound, hunits, Decimal.toFloat,
    magnitude_neg_natCast]

end Toolpath.Binary64
