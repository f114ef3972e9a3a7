import Toolpath.Proofs.Number.Encoding
import Toolpath.Proofs.Number.Monotone

/-! # Encoding what was rounded

Double arithmetic cuts a result off behind some bits, with two more bits that
tell what was cut off, rounds it to the nearest significand, and encodes that.
What comes out is the pattern nearest to the exact result, whatever was cut off
on the way.
-/

namespace Toolpath.Binary64

open Float.Model UnpackedFloat

/-! ## Cutting off -/

/-- The whole part of a quotient, with its residual bits. -/
def extended (num den : Nat) : ExtendedMantissa :=
  .ofMantissaAndAccuracy (num / den) (accuracyOfFraction (num % den) den)

section Extended

variable {num den : Nat}

/-- The residual bits tell whether the rest is at least one half, and whether there is anything
besides. -/
theorem extended_eq (num den : Nat) (hden : 0 < den) :
    extended num den =
      ⟨num / den, decide (den ≤ 2 * (num % den)),
        decide (num % den ≠ 0 ∧ 2 * (num % den) ≠ den)⟩ := by
  unfold extended accuracyOfFraction
  by_cases hzero : num % den = 0
  · rw [if_pos hzero, hzero]
    simp [ExtendedMantissa.ofMantissaAndAccuracy, Nat.ne_of_gt hden]
  · rw [if_neg hzero]
    rcases Nat.lt_trichotomy (2 * (num % den)) den with hlt | heq | hgt
    · have hcompare : compare (2 * (num % den)) den = .lt := Nat.compare_eq_lt.mpr hlt
      simp only [hcompare, ExtendedMantissa.ofMantissaAndAccuracy]
      simp [hzero, Nat.not_le.mpr hlt, Nat.ne_of_lt hlt]
    · have hcompare : compare (2 * (num % den)) den = .eq := Nat.compare_eq_eq.mpr heq
      simp only [hcompare, ExtendedMantissa.ofMantissaAndAccuracy]
      simp [heq]
    · have hcompare : compare (2 * (num % den)) den = .gt := Nat.compare_eq_gt.mpr hgt
      simp only [hcompare, ExtendedMantissa.ofMantissaAndAccuracy]
      simp [hzero, Nat.le_of_lt hgt, Nat.ne_of_gt hgt]

theorem shiftRightOne_extended (num : Nat) (hden : 0 < den) :
    (extended num den).shiftRightOne = extended num (den * 2) := by
  have hrest : num % (den * 2) = num % den + den * (num / den % 2) := Nat.mod_mul
  have hlt : num % den < den := Nat.mod_lt _ hden
  rw [extended_eq num den hden, extended_eq num (den * 2) (by omega), hrest]
  simp only [ExtendedMantissa.shiftRightOne, Nat.div_div_eq_div_mul]
  -- The last bit of the whole part becomes the first bit of the rest.
  rcases Nat.mod_two_eq_zero_or_one (num / den) with hbit | hbit <;>
    simp only [hbit, ExtendedMantissa.mk.injEq, true_and] <;> constructor
  · simp; omega
  · rw [Bool.eq_iff_iff]; simp; omega
  · simp; omega
  · rw [Bool.eq_iff_iff]; simp; omega

theorem shiftRight_extended (num : Nat) (hden : 0 < den) (n : Nat) :
    extended num den >>> n = extended num (den * 2 ^ n) := by
  induction n with
  | zero => rw [Nat.pow_zero, Nat.mul_one]; rfl
  | succ n ih =>
      have hpos : 0 < den * 2 ^ n := Nat.mul_pos hden (Nat.two_pow_pos n)
      change (extended num den >>> n).shiftRightOne = _
      rw [ih, shiftRightOne_extended num hpos, Nat.mul_assoc, Nat.pow_succ]

theorem roundedMantissa_extended (num : Nat) (hden : 0 < den) :
    (extended num den).roundedMantissa = roundHalfEven num den := by
  rw [extended_eq num den hden, roundHalfEven]
  have hlt : num % den < den := Nat.mod_lt _ hden
  simp only [ExtendedMantissa.roundedMantissa]
  rcases Nat.lt_trichotomy (2 * (num % den)) den with hless | heq | hmore
  · rw [if_pos hless]
    by_cases hzero : num % den = 0 <;>
      simp [ExtendedMantissa.accuracy, Accuracy.roundToNearestEven, hzero, Nat.not_le.mpr hless,
        Nat.ne_of_lt hless, Nat.ne_of_gt hden]
  · have hne : num % den ≠ 0 := by omega
    simp [ExtendedMantissa.accuracy, Accuracy.roundToNearestEven, heq]
  · have hne : num % den ≠ 0 := by omega
    simp [ExtendedMantissa.accuracy, Accuracy.roundToNearestEven, hne, Nat.le_of_lt hmore,
      Nat.ne_of_gt hmore, hmore, Nat.not_lt.mpr (Nat.le_of_lt hmore)]

end Extended

/-! ## Encoding -/

/-- The sign that the sign bit stands for. -/
def signOf (negative : Bool) : Sign :=
  if negative then .negative else .positive

theorem toNat_packComponents (negative : Bool) (e : BitVec 11) (m : BitVec 52) :
    (packComponents Format.binary64 (signOf negative) e m).toNat =
      (if negative then 2 ^ 63 else 0) + e.toNat * 2 ^ 52 + m.toNat := by
  rw [packComponents, toNat_append, toNat_append]
  cases negative with
  | false =>
      change (0 * 2 ^ 11 + e.toNat) * 2 ^ 52 + m.toNat = 0 + e.toNat * 2 ^ 52 + m.toNat
      omega
  | true =>
      change (1 * 2 ^ 11 + e.toNat) * 2 ^ 52 + m.toNat = 2 ^ 63 + e.toNat * 2 ^ 52 + m.toNat
      omega

/-- Words that are encoded alike are the same double. -/
theorem ofModel_pack_eq {u : UnpackedFloat} {word : UInt64}
    (h : (UnpackedFloat.pack Format.binary64 u).toNat = word.toNat) :
    Float.ofModel (Float.Model.pack u) = Float.ofBits word := by
  have hword : UnpackedFloat.pack Format.binary64 u = word.toBitVec := BitVec.eq_of_toNat_eq h
  have hvalid : Format.binary64.Valid word.toBitVec := hword ▸ valid_pack
  have hmodel : Float.Model.pack u = Float.Model.ofBits word := by
    unfold Float.Model.ofBits Float.Model.pack
    rw [Float.Model.mk.injEq, hword, pack_unpack hvalid]
  exact congrArg Float.ofModel hmodel

/-- A decoded zero is a zero. -/
theorem ofModel_pack_zero (negative : Bool) :
    Float.ofModel (Float.Model.pack (.zero (signOf negative))) = ofMagnitude negative 0 := by
  apply ofModel_pack_eq
  rw [toNat_word negative (Nat.zero_le _)]
  change (packComponents Format.binary64 (signOf negative) 0#11 0#52).toNat = _
  rw [toNat_packComponents]
  rfl

/-- A significand and its exponent are encoded in one pattern, unless they are too large. -/
theorem ofModel_pack_finite (negative : Bool) {m k : Nat} (hm : 0 < m) (hlt : m < 2 ^ 53)
    (hfull : k = 0 ∨ 2 ^ 52 ≤ m) :
    Float.ofModel (Float.Model.pack (.finite (signOf negative) m (k - 1074) hm)) =
      ofMagnitude negative (min (k * binade + m) infinity) := by
  have hpattern : min (k * binade + m) infinity = min (k * 2 ^ 52 + m) (2047 * 2 ^ 52) := rfl
  have hbias : Format.binary64.exponentBias = 1023 := rfl
  have hbits : 2 ^ Format.binary64.exponentBits = 2048 := rfl
  have hplaces : Format.binary64.mantissaBits = 53 := rfl
  have hfield : ((k : Int) - 1074 + (1023 : Nat) + (52 : Nat)).toNat = k + 1 := by omega
  apply ofModel_pack_eq
  rw [toNat_word negative (Nat.min_le_right _ _), hpattern]
  delta UnpackedFloat.pack
  dsimp only
  rw [hbias, hbits, hplaces, hfield]
  by_cases hlarge : 2048 ≤ k + 1 + 1
  · rw [if_pos hlarge, Nat.min_eq_right (by omega)]
    change (packComponents Format.binary64 (signOf negative) (-1#11) 0#52).toNat = _
    rw [toNat_packComponents]
    rfl
  · rw [if_neg hlarge]
    by_cases hnormal : 2 ^ 52 ≤ m
    · have hlog : m.log2 = 52 := (Nat.log2_eq_iff (by omega)).mpr ⟨hnormal, hlt⟩
      rw [if_pos (by rw [hlog]), toNat_packComponents, BitVec.toNat_ofNat, BitVec.toNat_ofNat,
        Nat.min_eq_left (by omega)]
      omega
    · have hlog : m.log2 < 52 := (Nat.log2_lt (by omega)).mpr (by omega)
      have hstored : (BitVec.ofNat 52 m).toNat = m := by
        rw [BitVec.toNat_ofNat]
        exact Nat.mod_eq_of_lt (by omega)
      rw [if_neg (by omega), toNat_packComponents, hstored, Nat.min_eq_left (by omega)]
      change _ + 0 * 2 ^ 52 + _ = _
      omega

/-! ## Rounding -/

theorem shift_small {m : Nat} {k : Nat} (hm : m < 2 ^ 53) :
    shiftToTargetExponent Format.binary64 m (k - 1074) .exact =
      (⟨m, false, false⟩, (k : Int) - 1074) := by
  have hlog : m.log2 < 53 := by
    by_cases hzero : m = 0
    · rw [hzero]; decide
    · exact (Nat.log2_lt hzero).mpr hm
  have hmin : Format.binary64.minExponent = -1074 := rfl
  have hbits : Format.binary64.mantissaBits = 53 := rfl
  have hshift : (Format.binary64.targetExponent (totalExponent m (k - 1074)) -
      ((k : Int) - 1074)).toNat = 0 := by
    simp only [Format.targetExponent, totalExponent, hmin, hbits]
    omega
  simp only [shiftToTargetExponent, shiftToExponent, hshift]
  refine Prod.ext rfl ?_
  simp only
  omega

theorem shift_carry (k : Nat) :
    shiftToTargetExponent Format.binary64 (2 ^ 53) (k - 1074) .exact =
      (⟨2 ^ 52, false, false⟩, ((k + 1 : Nat) : Int) - 1074) := by
  have hmin : Format.binary64.minExponent = -1074 := rfl
  have hbits : Format.binary64.mantissaBits = 53 := rfl
  have hlog : (2 ^ 53 : Nat).log2 = 53 := Nat.log2_two_pow
  have hshift : (Format.binary64.targetExponent (totalExponent (2 ^ 53) (k - 1074)) -
      ((k : Int) - 1074)).toNat = 1 := by
    simp only [Format.targetExponent, totalExponent, hmin, hbits, hlog]
    omega
  simp only [shiftToTargetExponent, shiftToExponent, hshift]
  refine Prod.ext rfl ?_
  simp only
  omega

/-- What is decoded from a significand that was rounded, which may be one bit too long. -/
def settled (negative : Bool) (m : Nat) (e : Int) : UnpackedFloat :=
  let final := shiftToTargetExponent Format.binary64 m e .exact
  if h : final.1.mantissa = 0 then .zero (signOf negative)
  else .finite (signOf negative) final.1.mantissa final.2 (Nat.pos_of_ne_zero h)

theorem settled_eq_finite (negative : Bool) {m : Nat} {e e' : Int} {em : ExtendedMantissa}
    (h : shiftToTargetExponent Format.binary64 m e .exact = (em, e')) (hm : 0 < em.mantissa) :
    settled negative m e = .finite (signOf negative) em.mantissa e' hm := by
  delta settled
  dsimp only
  rw [dif_neg (by rw [h]; exact Nat.ne_of_gt hm), finite.injEq, h]
  exact ⟨rfl, rfl, rfl⟩

theorem settled_eq_zero (negative : Bool) {m : Nat} {e e' : Int} {em : ExtendedMantissa}
    (h : shiftToTargetExponent Format.binary64 m e .exact = (em, e')) (hm : em.mantissa = 0) :
    settled negative m e = .zero (signOf negative) := by
  delta settled
  dsimp only
  rw [dif_pos (by rw [h]; exact hm)]

theorem ofModel_pack_settled (negative : Bool) {m k : Nat} (hle : m ≤ 2 ^ 53)
    (hfull : k = 0 ∨ 2 ^ 52 ≤ m) :
    Float.ofModel (Float.Model.pack (settled negative m (k - 1074))) =
      ofMagnitude negative (min (k * binade + m) infinity) := by
  rcases Nat.lt_or_eq_of_le hle with hlt | rfl
  · by_cases hzero : m = 0
    · obtain rfl : k = 0 := by omega
      subst hzero
      rw [settled_eq_zero negative (shift_small hlt) rfl]
      exact ofModel_pack_zero negative
    · rw [settled_eq_finite negative (shift_small hlt) (Nat.pos_of_ne_zero hzero)]
      exact ofModel_pack_finite negative _ hlt hfull
  · have hcarry : k * binade + 2 ^ 53 = (k + 1) * binade + 2 ^ 52 := by
      simp only [binade]
      omega
    rw [settled_eq_finite negative (shift_carry k) (Nat.two_pow_pos 52), hcarry]
    exact ofModel_pack_finite negative _ (by decide) (.inr (Nat.le_refl _))

/-- A quotient that is decoded with enough bits is encoded in the pattern that is nearest to it. -/
theorem ofModel_pack_round (negative : Bool) (num : Nat) {den : Nat} (hden : 0 < den) {e : Int}
    (h : e ≤ -1074 ∨ 52 ≤ (num / den).log2) :
    Float.ofModel (Float.Model.pack (roundWithAccuracy Format.binary64 (signOf negative) (num / den)
        e (accuracyOfFraction (num % den) den))) =
      ofMagnitude negative
        (round (num * 2 ^ (e + 1074).toNat) (den * 2 ^ (-(e + 1074)).toNat)) := by
  have hmin : Format.binary64.minExponent = -1074 := rfl
  have hbits : Format.binary64.mantissaBits = 53 := rfl
  generalize hk : (num * 2 ^ (e + 1074).toNat / (den * 2 ^ (-(e + 1074)).toNat)).log2 - 52 = k
  have hsides : (e + 1074).toNat = 0 ∨ ((-(e + 1074)).toNat = 0 ∧ num / den ≠ 0) := by
    by_cases hlow : e ≤ -1074
    · exact .inl (by omega)
    · refine .inr ⟨by omega, fun hzero => ?_⟩
      rw [hzero, Nat.log2_zero] at h
      omega
  have hlog := log2_mul_div_mul hden hsides
  have htarget :
      Format.binary64.targetExponent (totalExponent (num / den) e) = (k : Int) - 1074 := by
    simp only [Format.targetExponent, totalExponent, hmin, hbits]
    omega
  generalize hn : ((k : Int) - 1074 - e).toNat = n
  have hexp : e + n = (k : Int) - 1074 := by omega
  have hshift : shiftToTargetExponent Format.binary64 (num / den) e
      (accuracyOfFraction (num % den) den) = (extended num (den * 2 ^ n), (k : Int) - 1074) := by
    simp only [shiftToTargetExponent, shiftToExponent, htarget, hn]
    exact Prod.ext (shiftRight_extended num hden n) hexp
  have hpos : 0 < den * 2 ^ n := Nat.mul_pos hden (Nat.two_pow_pos n)
  have hsettled : roundWithAccuracy Format.binary64 (signOf negative) (num / den) e
      (accuracyOfFraction (num % den) den) =
        settled negative (roundHalfEven num (den * 2 ^ n)) (k - 1074) := by
    rw [← roundedMantissa_extended num hpos, roundWithAccuracy, hshift]
    rfl
  -- The whole part has at most 53 bits, and all of them unless it is the smallest exponent.
  have hwhole : (num / (den * 2 ^ n)).log2 = (num / den).log2 - n := by
    rw [← Nat.div_div_eq_div_mul, log2_div_two_pow]
  have hle : roundHalfEven num (den * 2 ^ n) ≤ 2 ^ 53 := roundHalfEven_le (by omega)
  have hfull : k = 0 ∨ 2 ^ 52 ≤ roundHalfEven num (den * 2 ^ n) := by
    by_cases hzero : k = 0
    · exact .inl hzero
    · exact .inr (le_roundHalfEven (by omega))
  -- Both sides round the same quotient.
  have hsame : roundHalfEven (num * 2 ^ (e + 1074).toNat)
      (den * 2 ^ (-(e + 1074)).toNat * 2 ^ k) = roundHalfEven num (den * 2 ^ n) := by
    have hsum : (-(e + 1074)).toNat + k = (e + 1074).toNat + n := by omega
    rw [Nat.mul_assoc, ← Nat.pow_add, hsum, Nat.pow_add, Nat.mul_left_comm, Nat.mul_comm num,
      roundHalfEven_mul_mul (Nat.two_pow_pos _)]
  rw [hsettled, ofModel_pack_settled negative hle hfull]
  simp only [round, hk, Nat.pow_eq, hsame]

/-- A whole number of halves of a power of two, of any length, is encoded in the nearest pattern. -/
theorem ofModel_pack_scaled (negative : Bool) {m : Nat} {e : Int} (hm : 0 < m) :
    Float.ofModel (Float.Model.pack (UnpackedFloat.round Format.binary64 (signOf negative) m e)) =
      ofMagnitude negative (round (m * 2 ^ (e + 1074).toNat) (2 ^ (-(e + 1074)).toNat)) := by
  have hmin : Format.binary64.minExponent = -1074 := rfl
  have hbits : Format.binary64.mantissaBits = 53 := rfl
  generalize hn : (e - Format.binary64.targetExponent (totalExponent m e)).toNat = n
  have hround : UnpackedFloat.round Format.binary64 (signOf negative) m e =
      roundWithAccuracy Format.binary64 (signOf negative) (m * 2 ^ n) (e - n) .exact := by
    simp only [UnpackedFloat.round, decreaseExponent, hn, Nat.shiftLeft_eq]
  have hlog : (m * 2 ^ n).log2 = m.log2 + n := log2_mul_pow (Nat.ne_of_gt hm) n
  simp only [Format.targetExponent, totalExponent, hmin, hbits] at hn
  have hexact := ofModel_pack_round negative (m * 2 ^ n) Nat.one_pos (e := e - n) (by
    rw [Nat.div_one, hlog]
    omega)
  rw [Nat.div_one, Nat.mod_one] at hexact
  rw [hround]
  refine hexact.trans (congrArg _ (round_eq_round ?_ (Nat.two_pow_pos _) ?_))
  · exact Nat.mul_pos Nat.one_pos (Nat.two_pow_pos _)
  · have hsum : n + (e - n + 1074).toNat + (-(e + 1074)).toNat =
        (e + 1074).toNat + (-(e - n + 1074)).toNat := by omega
    rw [Nat.mul_assoc m, Nat.mul_assoc m, Nat.mul_assoc m, Nat.one_mul, ← Nat.pow_add,
      ← Nat.pow_add, ← Nat.pow_add, hsum]

end Toolpath.Binary64
