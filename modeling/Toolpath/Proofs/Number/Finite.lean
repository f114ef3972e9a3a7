import Mathlib.Algebra.Group.Nat.Defs
import Toolpath.Number.Rounding

/-! # Finite doubles

Rounding to decimal places keeps a finite double finite. The double is scaled
up, rounded to a whole number, and divided by the scale again. That the product
is finite is checked; that the quotient is follows from the scale being at
least one, for a rounded quotient is never beyond a double that bounds the
exact one.
-/

namespace Toolpath.Number

open Float.Model UnpackedFloat

/-! ## Encoding -/

/-- Whether a decoded double is finite and has an exponent in the range of doubles. -/
def Fits : UnpackedFloat → Prop
  | .zero _ => True
  | .finite _ _ e _ => e ≤ 971
  | .infinity _ => False
  | .notANumber => False

/-- The exponent field of a double is all ones in the infinities and in what is not a number. -/
theorem exponent_eq_allOnes_iff (b : BitVec Format.binary64.numBits) :
    unpackExponent b = -1#_ ↔ (unpackExponent b).toNat = 2047 := by
  rw [← BitVec.toNat_inj]
  rfl

theorem isFinite_unpack_iff (b : BitVec Format.binary64.numBits) :
    (UnpackedFloat.unpack Format.binary64 b).isFinite = true ↔
      (unpackExponent b).toNat < 2047 := by
  have hexp : (unpackExponent b).toNat < 2 ^ 11 := (unpackExponent b).isLt
  have hones := exponent_eq_allOnes_iff b
  delta UnpackedFloat.unpack
  by_cases h : unpackExponent b = -1#_
  · have hle : ¬(unpackExponent b).toNat < 2047 := by
      rw [hones.mp h]
      decide
    rw [if_pos h]
    refine iff_of_false ?_ hle
    by_cases hm : unpackMantissa b = 0#_
    · rw [if_pos hm]
      exact Bool.false_ne_true
    · rw [if_neg hm]
      exact Bool.false_ne_true
  · have hlt : (unpackExponent b).toNat < 2047 := by
      have := mt hones.mpr h
      clear h hones
      omega
    rw [if_neg h]
    refine iff_of_true ?_ hlt
    by_cases h0 : unpackExponent b = 0#_
    · rw [if_pos h0]
      by_cases hm : unpackMantissa b = 0#_
      · rw [dif_pos hm]
        rfl
      · rw [dif_neg hm]
        rfl
    · rw [if_neg h0]
      rfl

/-- The significand and the exponent of a finite double are in range. -/
theorem unpack_eq_finite {b : BitVec Format.binary64.numBits} {s : Sign} {m : Nat} {e : Int}
    {hm : 0 < m} (h : UnpackedFloat.unpack Format.binary64 b = .finite s m e hm) :
    m < 2 ^ 53 ∧ e ≤ 971 := by
  have hexp : (unpackExponent b).toNat < 2 ^ 11 := (unpackExponent b).isLt
  have hman : (unpackMantissa b).toNat < 2 ^ 52 := (unpackMantissa b).isLt
  have hsig : (1#1 ++ unpackMantissa b).toNat < 2 ^ 53 := (1#1 ++ unpackMantissa b).isLt
  have hones := exponent_eq_allOnes_iff b
  have hbias : Format.binary64.exponentBias = 1023 := rfl
  have hbits : 2 ^ Format.binary64.exponentBits = 2048 := rfl
  delta UnpackedFloat.unpack at h
  dsimp only at h
  by_cases hexponent : unpackExponent b = -1#_
  · rw [if_pos hexponent] at h
    by_cases hmantissa : unpackMantissa b = 0#_
    · rw [if_pos hmantissa] at h
      cases h
    · rw [if_neg hmantissa] at h
      cases h
  · have hfield := mt hones.mpr hexponent
    rw [if_neg hexponent] at h
    by_cases hzero : unpackExponent b = 0#_
    · rw [if_pos hzero] at h
      by_cases hmantissa : unpackMantissa b = 0#_
      · rw [dif_pos hmantissa] at h
        cases h
      · rw [dif_neg hmantissa] at h
        injection h with _ hm he
        rw [hzero, hbias] at he
        change (0 : Int) - _ + 1 = e at he
        constructor <;> omega
    · rw [if_neg hzero] at h
      injection h with _ hm he
      rw [hbias] at he
      constructor <;> omega

theorem fits_unpack {b : BitVec Format.binary64.numBits}
    (h : (UnpackedFloat.unpack Format.binary64 b).isFinite = true) :
    Fits (UnpackedFloat.unpack Format.binary64 b) := by
  cases hb : UnpackedFloat.unpack Format.binary64 b with
  | zero s => trivial
  | finite s m e hm => exact (unpack_eq_finite hb).2
  | infinity s => rw [hb] at h; cases h
  | notANumber => rw [hb] at h; cases h

theorem isFinite_ofModel_pack {u : UnpackedFloat} (h : Fits u) :
    (Float.ofModel (pack u)).isFinite = true := by
  change (UnpackedFloat.unpack Format.binary64 (UnpackedFloat.pack Format.binary64 u)).isFinite = _
  rw [isFinite_unpack_iff]
  cases u with
  | zero s =>
      change (unpackExponent (packedZero Format.binary64 s)).toNat < 2047
      rw [packedZero, unpackExponent_packComponents]
      decide
  | finite s m e hm =>
      have hbias : Format.binary64.exponentBias = 1023 := rfl
      have hbits : 2 ^ Format.binary64.exponentBits = 2048 := rfl
      have he : e ≤ 971 := h
      delta UnpackedFloat.pack
      dsimp only
      rw [hbias, hbits]
      rw [if_neg (by omega)]
      split
      · rw [unpackExponent_packComponents, BitVec.toNat_ofNat]
        refine Nat.lt_of_le_of_lt (Nat.mod_le _ _) ?_
        omega
      · rw [unpackExponent_packComponents]
        decide
  | infinity s => cases h
  | notANumber => cases h

theorem isFinite_ofBits {w : UInt64} (h : w.toNat / 2 ^ 52 % 2 ^ 11 < 2047) :
    (Float.ofBits w).isFinite = true := by
  refine isFinite_ofModel_pack (fits_unpack ((isFinite_unpack_iff _).mpr ?_))
  change w.toNat >>> 52 % 2 ^ 11 < 2047
  rwa [Nat.shiftRight_eq_div_pow]

theorem isFinite_ofMagnitude {negative : Bool} {bits : Nat} (h : bits < Binary64.infinity) :
    (Binary64.ofMagnitude negative bits).isFinite = true := by
  have hbits : bits < 2047 * 2 ^ 52 := h
  have hword : (UInt64.ofNat bits).toNat = bits := by
    rw [UInt64.toNat_ofNat']
    omega
  apply isFinite_ofBits
  cases negative with
  | false =>
      change (UInt64.ofNat bits).toNat / 2 ^ 52 % 2 ^ 11 < 2047
      rw [hword]
      omega
  | true =>
      change (Binary64.signBit + UInt64.ofNat bits).toNat / 2 ^ 52 % 2 ^ 11 < 2047
      have hsign : Binary64.signBit.toNat = 2 ^ 63 := rfl
      rw [UInt64.toNat_add, hword, hsign]
      omega

/-! ## Whole numbers -/

theorem wholePattern_lt {n : Nat} (h : n < 2 ^ 53) :
    Binary64.wholePattern n < Binary64.infinity := by
  simp only [Binary64.wholePattern, Binary64.infinity, Binary64.binade]
  split
  · decide
  next hn =>
    have hlog : n.log2 < 53 := (Nat.log2_lt hn).mpr h
    have hshift : n <<< (52 - n.log2) < 2 ^ 53 := by
      have hlt : n < 2 ^ (n.log2 + 1) := Nat.lt_log2_self
      calc n <<< (52 - n.log2) = n * 2 ^ (52 - n.log2) := Nat.shiftLeft_eq _ _
        _ < 2 ^ (n.log2 + 1) * 2 ^ (52 - n.log2) :=
            Nat.mul_lt_mul_of_pos_right hlt (Nat.two_pow_pos _)
        _ = 2 ^ 53 := by
            rw [← Nat.pow_add]
            congr 1
            omega
    omega

theorem significand_lt (bits : Nat) : Binary64.significand bits < 2 ^ 53 := by
  rw [Binary64.significand, Binary64.binade]
  split <;> omega

theorem isFinite_roundWhole {x : Float} (h : x.isFinite = true) :
    (roundWhole x).isFinite = true := by
  simp only [roundWhole]
  split
  · exact h
  · apply isFinite_ofMagnitude
    apply wholePattern_lt
    have hsig := significand_lt (Binary64.magnitude x)
    have hcut : Binary64.significand (Binary64.magnitude x) >>>
        (1073 - Binary64.scale (Binary64.magnitude x)) < 2 ^ 53 :=
      Nat.lt_of_le_of_lt (Nat.shiftRight_le _ _) hsig
    simp only [nearestWhole]
    omega

/-! ## Quotients -/

/-- Whether a significand with its residual bits is at most `bound`: it is below, or equal to it
and exact. -/
def AtMost (em : ExtendedMantissa) (bound : Nat) : Prop :=
  em.mantissa < bound ∨ em.mantissa = bound ∧ em.roundBit = false ∧ em.stickyBit = false

theorem AtMost.shiftRightOne {em : ExtendedMantissa} {bound : Nat} (h : AtMost em (2 * bound)) :
    AtMost em.shiftRightOne bound := by
  rcases h with hlt | ⟨heq, hround, hsticky⟩
  · left
    change em.mantissa / 2 < bound
    omega
  · right
    refine ⟨?_, ?_, ?_⟩
    · change em.mantissa / 2 = bound
      omega
    · change (em.mantissa % 2 != 0) = false
      rw [heq, Nat.mul_mod_right]
      rfl
    · change (em.roundBit || em.stickyBit) = false
      rw [hround, hsticky]
      rfl

theorem AtMost.shiftRight {em : ExtendedMantissa} {bound : Nat} (n : Nat)
    (h : AtMost em (2 ^ n * bound)) : AtMost (em >>> n) bound := by
  induction n generalizing bound with
  | zero => rwa [Nat.pow_zero, Nat.one_mul] at h
  | succ n ih =>
      apply AtMost.shiftRightOne
      apply ih
      rwa [← Nat.mul_assoc, ← Nat.pow_succ]

/-- Rounding to the nearest does not go beyond a whole number that is not exceeded. -/
theorem AtMost.roundedMantissa_le {em : ExtendedMantissa} {bound : Nat} (h : AtMost em bound) :
    em.roundedMantissa ≤ bound := by
  obtain ⟨m, round, sticky⟩ := em
  rcases h with hlt | ⟨heq, hround, hsticky⟩
  · replace hlt : m < bound := hlt
    have hup : ExtendedMantissa.roundedMantissa ⟨m, round, sticky⟩ ≤ m + 1 := by
      rcases round with _ | _ <;> rcases sticky with _ | _ <;>
        simp only [ExtendedMantissa.roundedMantissa, ExtendedMantissa.accuracy,
          Accuracy.roundToNearestEven] <;> omega
    omega
  · subst hround hsticky
    exact Nat.le_of_eq heq

theorem mantissa_ofMantissaAndAccuracy (m : Nat) (acc : Accuracy) :
    (ExtendedMantissa.ofMantissaAndAccuracy m acc).mantissa = m := by
  rcases acc with _ | _ | _ | _ <;> rfl

theorem atMost_quotient {num den bound : Nat} (h : num ≤ bound * den) :
    AtMost (.ofMantissaAndAccuracy (num / den) (accuracyOfFraction (num % den) den)) bound := by
  have hquot : num / den ≤ bound := Nat.div_le_of_le_mul (by rwa [Nat.mul_comm])
  rcases Nat.lt_or_eq_of_le hquot with hlt | heq
  · left
    rwa [mantissa_ofMantissaAndAccuracy]
  · right
    have hrem : num % den = 0 := by
      have hsplit := Nat.div_add_mod num den
      rw [heq, Nat.mul_comm] at hsplit
      omega
    rw [hrem, heq]
    exact ⟨rfl, rfl, rfl⟩

/-- The largest significand. -/
def maxSignificand : Nat := 2 ^ 53 - 1

/-- Whether a significand at an exponent is at most the largest finite double. -/
def InRange (em : ExtendedMantissa) (e : Int) : Prop :=
  e ≤ 971 ∧ AtMost em (maxSignificand * 2 ^ (971 - e).toNat)

theorem targetExponent_le {m : Nat} {e : Int} (he : e ≤ 971)
    (hm : m ≤ maxSignificand * 2 ^ (971 - e).toNat) :
    Format.binary64.targetExponent (totalExponent m e) ≤ 971 := by
  have hlog : m.log2 ≤ 52 + (971 - e).toNat := by
    by_cases h0 : m = 0
    · subst h0
      exact Nat.zero_le _
    · have hpow : m < 2 ^ (53 + (971 - e).toNat) := by
        rw [Nat.pow_add]
        refine Nat.lt_of_le_of_lt hm (Nat.mul_lt_mul_of_pos_right ?_ (Nat.two_pow_pos _))
        decide
      have := (Nat.log2_lt h0).mpr hpow
      omega
  have hmin : Format.binary64.minExponent = -1074 := rfl
  have hbits : Format.binary64.mantissaBits = 53 := rfl
  simp only [Format.targetExponent, totalExponent, hmin, hbits]
  omega

/-- Bits are shifted out of a significand only as far as the exponents of doubles reach. -/
theorem InRange.shift {m : Nat} {e : Int} {acc : Accuracy}
    (h : InRange (.ofMantissaAndAccuracy m acc) e) :
    InRange (shiftToTargetExponent Format.binary64 m e acc).1
      (shiftToTargetExponent Format.binary64 m e acc).2 := by
  obtain ⟨he, hm⟩ := h
  have htarget : Format.binary64.targetExponent (totalExponent m e) ≤ 971 := by
    refine targetExponent_le he ?_
    rw [← mantissa_ofMantissaAndAccuracy m acc]
    rcases hm with hlt | ⟨heq, _⟩
    · exact Nat.le_of_lt hlt
    · exact Nat.le_of_eq heq
  simp only [shiftToTargetExponent, shiftToExponent]
  generalize Format.binary64.targetExponent (totalExponent m e) = target at htarget
  refine ⟨by omega, AtMost.shiftRight _ ?_⟩
  have hsum : (971 - e).toNat = (target - e).toNat + (971 - (e + (target - e).toNat)).toNat := by
    omega
  rwa [hsum, Nat.pow_add, Nat.mul_left_comm] at hm

theorem InRange.fits_roundWithAccuracy {s : Sign} {m : Nat} {e : Int} {acc : Accuracy}
    (h : InRange (.ofMantissaAndAccuracy m acc) e) :
    Fits (roundWithAccuracy Format.binary64 s m e acc) := by
  have hfirst := h.shift
  dsimp only [roundWithAccuracy]
  generalize shiftToTargetExponent Format.binary64 m e acc = first at hfirst ⊢
  -- The rounded significand is exact, and may be one bit too long.
  have hrounded : InRange (.ofMantissaAndAccuracy first.1.roundedMantissa .exact) first.2 := by
    refine ⟨hfirst.1, ?_⟩
    rcases Nat.lt_or_eq_of_le hfirst.2.roundedMantissa_le with hlt | heq
    · exact .inl hlt
    · exact .inr ⟨heq, rfl, rfl⟩
  have hsecond := hrounded.shift
  -- The exponent behind the second shift is the one that is packed.
  generalize shiftToTargetExponent Format.binary64 first.1.roundedMantissa first.2 .exact =
    second at hsecond ⊢
  by_cases hzero : second.1.mantissa = 0
  · rw [dif_pos hzero]
    trivial
  · rw [dif_neg hzero]
    exact hsecond.1

/-- A finite double divided by one whose magnitude is at least one does not overflow. -/
theorem fits_div {s₁ s₂ : Sign} {m₁ m₂ : Nat} {e₁ e₂ : Int} {h₁ : 0 < m₁} {h₂ : 0 < m₂}
    (hm₁ : m₁ < 2 ^ 53) (he₁ : e₁ ≤ 971) (hm₂ : 2 ^ 52 ≤ m₂) (he₂ : -52 ≤ e₂) :
    Fits (UnpackedFloat.div Format.binary64 (.finite s₁ m₁ e₁ h₁) (.finite s₂ m₂ e₂ h₂)) := by
  dsimp only [UnpackedFloat.div, divCore]
  apply InRange.fits_roundWithAccuracy
  have hlog₁ : m₁.log2 < 53 := (Nat.log2_lt (by omega)).mpr hm₁
  have hlog₂ : 52 ≤ m₂.log2 := (Nat.le_log2 (by omega)).mpr hm₂
  have hmin : Format.binary64.minExponent = -1074 := rfl
  have hbits : Format.binary64.mantissaBits = 53 := rfl
  have htarget : Format.binary64.targetExponent (totalExponent m₁ e₁ - totalExponent m₂ e₂) ≤
      971 := by
    simp only [Format.targetExponent, totalExponent, hmin, hbits]
    omega
  generalize Format.binary64.targetExponent _ = target at htarget
  refine ⟨by omega, atMost_quotient ?_⟩
  -- What the divisor takes away is at least what its exponent may add.
  generalize ht : min (e₁ - e₂) target = t
  have hpow : 2 ^ (e₁ - e₂ - t).toNat ≤ 2 ^ (971 - t).toNat * 2 ^ 52 := by
    rw [← Nat.pow_add]
    exact Nat.pow_le_pow_right (by decide) (by omega)
  calc m₁ <<< (e₁ - e₂ - t).toNat = m₁ * 2 ^ (e₁ - e₂ - t).toNat := Nat.shiftLeft_eq _ _
    _ ≤ maxSignificand * (2 ^ (971 - t).toNat * 2 ^ 52) :=
        Nat.mul_le_mul (Nat.le_pred_of_lt hm₁) hpow
    _ = maxSignificand * 2 ^ (971 - t).toNat * 2 ^ 52 := (Nat.mul_assoc _ _ _).symm
    _ ≤ maxSignificand * 2 ^ (971 - t).toNat * m₂ := Nat.mul_le_mul_left _ hm₂

/-- Whether a decoded double is a normal number that is at least one. -/
def isAtLeastOne : UnpackedFloat → Bool
  | .finite .positive m e _ => 2 ^ 52 ≤ m && -52 ≤ e
  | _ => false

theorem isFinite_div {x y : Float} (hx : x.isFinite = true)
    (hy : isAtLeastOne y.toModel.unpack = true) : (x / y).isFinite = true := by
  refine isFinite_ofModel_pack (u := .div .binary64 x.toModel.unpack y.toModel.unpack) ?_
  cases hy' : y.toModel.unpack with
  | infinity s => rw [hy'] at hy; cases hy
  | notANumber => rw [hy'] at hy; cases hy
  | zero s => rw [hy'] at hy; cases hy
  | finite s₂ m₂ e₂ h₂ =>
      rw [hy'] at hy
      change x.toModel.unpack.isFinite = true at hx
      cases hx' : x.toModel.unpack with
      | infinity s => rw [hx'] at hx; cases hx
      | notANumber => rw [hx'] at hx; cases hx
      | zero s => trivial
      | finite s₁ m₁ e₁ h₁ =>
          obtain ⟨hm₁, he₁⟩ := unpack_eq_finite hx'
          cases s₂ with
          | negative => cases hy
          | positive =>
              change (decide (2 ^ 52 ≤ m₂) && decide (-52 ≤ e₂)) = true at hy
              rw [Bool.and_eq_true, decide_eq_true_iff, decide_eq_true_iff] at hy
              exact fits_div hm₁ he₁ hy.1 hy.2

theorem isAtLeastOne_powerOfTen {places : Nat} (h : places ≤ maxPlaces) :
    isAtLeastOne (powerOfTen places).toModel.unpack = true := by
  have hall : ∀ n ≤ maxPlaces,
      isAtLeastOne (Decimal.mk false 1 (n : Nat)).toFloat.toModel.unpack = true := by
    decide +kernel
  rw [powerOfTen_eq_toFloat (Nat.lt_of_le_of_lt h (by decide))]
  exact hall places h

/-- Rounding keeps finite doubles finite. -/
theorem isFinite_roundTo {x : Float} (places : Nat) (h : x.isFinite = true) :
    (roundTo x places).isFinite = true := by
  simp only [roundTo]
  split
  · exact h
  · split
    · exact h
    next hscaled =>
      refine isFinite_div (isFinite_roundWhole ?_) (isAtLeastOne_powerOfTen (Nat.min_le_right _ _))
      simpa using hscaled

end Toolpath.Number
