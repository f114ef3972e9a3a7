import Mathlib.Algebra.Group.Nat.Defs
import Toolpath.Number.Shortest

/-! # Doubles nearest to decimals

The double of a decimal depends on its value alone, however the value is split
into a coefficient and a power of ten. The decimal that is written for a double
has that double: the search only accepts decimals that do, and the exact one is
there if it finds none.
-/

namespace Toolpath

namespace Binary64

/-! ## Quotients -/

variable {num den : Nat}

theorem roundHalfEven_mul_mul {a : Nat} (ha : 0 < a) (num den : Nat) :
    roundHalfEven (a * num) (a * den) = roundHalfEven num den := by
  have hrest : 2 * (a * num % (a * den)) = a * (2 * (num % den)) := by
    rw [Nat.mul_mod_mul_left, Nat.mul_left_comm]
  simp only [roundHalfEven, hrest, Nat.mul_div_mul_left _ _ ha, Nat.mul_lt_mul_left ha]

theorem round_mul_mul {a : Nat} (ha : 0 < a) (num den : Nat) :
    round (a * num) (a * den) = round num den := by
  simp only [round, Nat.mul_div_mul_left _ _ ha, Nat.mul_assoc, roundHalfEven_mul_mul ha]

/-- Equal quotients are rounded to the same pattern. -/
theorem round_eq_round {num' den' : Nat} (hden : 0 < den) (hden' : 0 < den')
    (h : num * den' = num' * den) : round num den = round num' den' := by
  rw [← round_mul_mul hden' num den, ← round_mul_mul hden num' den', Nat.mul_comm den' num, h,
    Nat.mul_comm num' den, Nat.mul_comm den' den]

/-- What is less than one half of a unit is rounded to zero. -/
theorem round_of_lt (h : 2 * num < den) : round num den = 0 := by
  have hquot : num / den = 0 := Nat.div_eq_of_lt (by omega)
  have hmod : num % den = num := Nat.mod_eq_of_lt (by omega)
  have hone : den * Nat.pow 2 0 = den := Nat.mul_one den
  simp only [round, hquot, Nat.log2_zero, Nat.zero_sub, hone, roundHalfEven, hmod, if_pos h]
  rfl

/-- What is far beyond the finite doubles is rounded to infinity. -/
theorem round_of_le {n : Nat} (hn : 2099 ≤ n) (hden : 0 < den) (h : 2 ^ n * den ≤ num) :
    round num den = infinity := by
  have hquot : 2 ^ n ≤ num / den := (Nat.le_div_iff_mul_le hden).mpr h
  have hne : num / den ≠ 0 := Nat.ne_of_gt (Nat.lt_of_lt_of_le (Nat.two_pow_pos n) hquot)
  have hlog : n ≤ (num / den).log2 := (Nat.le_log2 hne).mpr hquot
  have hk : 0x7FF * binade ≤ ((num / den).log2 - 52) * binade :=
    Nat.mul_le_mul_right _ (by omega)
  exact Nat.min_eq_right (Nat.le_trans hk (Nat.le_add_right _ _))

/-- A whole number of the right length times a power of two is rounded to its own pattern. -/
theorem round_mul_pow {m k : Nat} (h : (m * Nat.pow 2 k).log2 - 52 = k) :
    round (m * Nat.pow 2 k) 1 = min (k * binade + m) infinity := by
  rw [round, Nat.div_one, h, Nat.one_mul, roundHalfEven_mul m (Nat.pow 2 k) (Nat.two_pow_pos k)]

/-- A finite pattern is the nearest to what it stands for. -/
theorem round_units {bits : Nat} (h : bits < infinity) : round (units bits) 1 = bits := by
  have hbinade : 0 < binade := by decide
  by_cases hsub : bits < binade
  · have hscale : scale bits = 0 := by rw [scale, Nat.div_eq_of_lt hsub]
    have hlog : (bits * Nat.pow 2 0).log2 - 52 = 0 := by
      have hmul : bits * Nat.pow 2 0 = bits := Nat.mul_one bits
      by_cases h0 : bits = 0
      · rw [h0]
        decide
      · have := (Nat.log2_lt h0).mpr (show bits < 2 ^ 52 from hsub)
        rw [hmul]
        omega
    rw [units, significand, if_pos hsub, hscale, round_mul_pow hlog, Nat.zero_mul, Nat.zero_add]
    exact Nat.min_eq_left (Nat.le_of_lt h)
  · have hquot : 1 ≤ bits / binade := (Nat.le_div_iff_mul_le hbinade).mpr (by omega)
    have hrest : bits % binade < binade := Nat.mod_lt _ hbinade
    have hsplit : binade * (bits / binade) + bits % binade = bits := Nat.div_add_mod bits binade
    have hne : binade + bits % binade ≠ 0 := by omega
    have hfull : (binade + bits % binade).log2 = 52 := by
      refine (Nat.log2_eq_iff hne).mpr ⟨Nat.le_add_right _ _, ?_⟩
      have : (2 : Nat) ^ (52 + 1) = binade + binade := rfl
      omega
    have hlog : ((binade + bits % binade) * Nat.pow 2 (scale bits)).log2 - 52 = scale bits := by
      rw [log2_mul_pow hne, hfull]
      omega
    have hback : scale bits * binade + (binade + bits % binade) = bits := by
      obtain ⟨k, hk⟩ := Nat.exists_eq_add_of_le hquot
      rw [scale, hk, Nat.add_sub_cancel_left]
      rw [hk, Nat.mul_add, Nat.mul_one, Nat.mul_comm binade k] at hsplit
      omega
    rw [units, significand, if_neg hsub, round_mul_pow hlog, hback]
    exact Nat.min_eq_left (Nat.le_of_lt h)

end Binary64

namespace Decimal

open Binary64

/-- One is a power of two; the power is a variable so that it is not computed. -/
theorem two_pow_mul_one {m : Nat} (h : m = 1074) (k : Nat) : 2 ^ k * one = 2 ^ (k + m) := by
  rw [one_eq_mul (a := m) (b := 0) h, Nat.pow_add]
  exact congrArg _ (Nat.mul_one _)

theorem ten_pow_pos (n : Nat) : 0 < 10 ^ n := Nat.pow_pos (by decide)

/-- Ten decimal places are more than 33 binary ones. -/
theorem two_pow_le_ten_pow {m n : Nat} (h : m ≤ 33 * (n / 10)) : 2 ^ m ≤ 10 ^ n :=
  calc 2 ^ m
    _ ≤ 2 ^ (33 * (n / 10)) := Nat.pow_le_pow_right (by decide) h
    _ = (2 ^ 33) ^ (n / 10) := Nat.pow_mul ..
    _ ≤ (10 ^ 10) ^ (n / 10) := Nat.pow_le_pow_left (by decide) _
    _ = 10 ^ (10 * (n / 10)) := (Nat.pow_mul ..).symm
    _ ≤ 10 ^ n := Nat.pow_le_pow_right (by decide) (Nat.mul_div_le n 10)

/-- From `10 ^ 331` on there are no finite doubles. -/
theorem round_mul_ten_pow {coefficient n : Nat} (hc : 1 ≤ coefficient) (hn : 331 ≤ n)
    (hden : 0 < den) : round (coefficient * 10 ^ n * one * den) den = infinity := by
  refine round_of_le (n := 33 * (n / 10) + 1074) (by omega) hden (Nat.mul_le_mul_right _ ?_)
  calc 2 ^ (33 * (n / 10) + 1074)
    _ = 2 ^ (33 * (n / 10)) * one := (two_pow_mul_one rfl _).symm
    _ ≤ 10 ^ n * one := Nat.mul_le_mul_right _ (two_pow_le_ten_pow (Nat.le_refl _))
    _ ≤ coefficient * 10 ^ n * one := Nat.mul_le_mul_right _ (Nat.le_mul_of_pos_left _ hc)

/-- Below `10 ^ -340` everything is less than one half of a unit. -/
theorem mul_lt_ten_pow {coefficient n : Nat} (hn : 341 + coefficient.log2 / 3 ≤ n) :
    2 * (coefficient * one) < 10 ^ n := by
  have hone : 0 < one := by decide +kernel
  have hlog : coefficient < 2 ^ (coefficient.log2 + 1) := Nat.lt_log2_self
  calc 2 * (coefficient * one)
    _ < 2 * (2 ^ (coefficient.log2 + 1) * one) :=
        Nat.mul_lt_mul_of_pos_left (Nat.mul_lt_mul_of_pos_right hlog hone) (by decide)
    _ = 2 ^ (coefficient.log2 + 1 + 1074 + 1) := by rw [two_pow_mul_one rfl, ← Nat.pow_succ']
    _ ≤ 10 ^ n := two_pow_le_ten_pow (by omega)

/-- The double of a decimal is found by rounding one quotient, whatever power of ten its two sides
are brought to. -/
theorem magnitude_eq_round (d : Decimal) (shift : Nat) (h : 0 ≤ d.exponent + shift) :
    d.magnitude =
      round (d.coefficient * 10 ^ (d.exponent + shift).toNat * one) (10 ^ shift) := by
  obtain ⟨negative, c, e⟩ := d
  simp only [magnitude] at h ⊢
  split
  · next hzero =>
    rw [hzero, Nat.zero_mul, Nat.zero_mul, round_of_lt (ten_pow_pos shift)]
  next hne =>
  have hc : 1 ≤ c := Nat.pos_of_ne_zero hne
  split
  · next hlarge =>
    obtain ⟨n, rfl⟩ := Int.eq_ofNat_of_zero_le (a := e) (by omega)
    have hexp : ((n : Int) + shift).toNat = n + shift := by omega
    rw [hexp, Nat.pow_add, ← Nat.mul_assoc c, Nat.mul_right_comm,
      round_mul_ten_pow hc (by omega) (ten_pow_pos shift)]
  split
  · next hsmall =>
    have hexp : shift = (e + shift).toNat + (-e).toNat := by omega
    refine (round_of_lt ?_).symm
    calc 2 * (c * 10 ^ (e + shift).toNat * one)
      _ = 10 ^ (e + shift).toNat * (2 * (c * one)) := by
          rw [Nat.mul_right_comm c, ← Nat.mul_assoc, Nat.mul_comm]
      _ < 10 ^ (e + shift).toNat * 10 ^ (-e).toNat :=
          Nat.mul_lt_mul_of_pos_left (mul_lt_ten_pow (by omega)) (ten_pow_pos _)
      _ = 10 ^ shift := by rw [← Nat.pow_add, ← hexp]
  split
  · next hpos =>
    have hexp : (e + shift).toNat = e.toNat + shift := by omega
    refine round_eq_round Nat.one_pos (ten_pow_pos shift) ?_
    rw [hexp, Nat.pow_add, Nat.mul_one, Nat.pow_eq, ← Nat.mul_assoc c, Nat.mul_right_comm]
  · next hneg =>
    have hexp : shift = (e + shift).toNat + (-e).toNat := by omega
    refine round_eq_round (ten_pow_pos _) (ten_pow_pos shift) ?_
    calc c * one * 10 ^ shift
      _ = c * one * (10 ^ (e + shift).toNat * 10 ^ (-e).toNat) := by rw [← Nat.pow_add, ← hexp]
      _ = c * 10 ^ (e + shift).toNat * one * 10 ^ (-e).toNat := by
          rw [← Nat.mul_assoc, Nat.mul_right_comm c one]

/-- A power of ten may be moved from the coefficient to the exponent. -/
theorem magnitude_mul_pow (negative : Bool) (coefficient : Nat) (exponent : Int) (n : Nat) :
    (Decimal.mk negative (coefficient * 10 ^ n) exponent).magnitude =
      (Decimal.mk negative coefficient (exponent + n)).magnitude := by
  have hshift : 0 ≤ exponent + (-exponent).toNat := by omega
  have hexp : (exponent + n + (-exponent).toNat).toNat =
      n + (exponent + (-exponent).toNat).toNat := by omega
  rw [magnitude_eq_round _ (-exponent).toNat hshift,
    magnitude_eq_round _ (-exponent).toNat (by simp only; omega)]
  simp only [hexp, Nat.pow_add, Nat.mul_assoc]

end Decimal

namespace Shortest

open Binary64

theorem magnitude_dropZeros (d : Decimal) :
    (dropZeros d).magnitude = d.magnitude := by
  induction d using dropZeros.induct with
  | case1 d hzero => rw [dropZeros, if_pos hzero]
  | case2 d hne hzero ih =>
      have hten : d.coefficient / 10 * 10 ^ 1 = d.coefficient := by omega
      have hmoved := Decimal.magnitude_mul_pow d.negative (d.coefficient / 10) d.exponent 1
      rw [hten] at hmoved
      rw [dropZeros, if_neg hne, if_pos hzero, ih]
      exact hmoved.symm
  | case3 d hne hend => rw [dropZeros, if_neg hne, if_neg hend]

/-- The exact decimal of a finite magnitude has that magnitude. -/
theorem magnitude_exact {bits : Nat} (h : bits < infinity) : (exact bits).magnitude = bits := by
  have hround := round_units h
  rw [exact]
  split
  · next hwhole =>
    have hunits : significand bits * Nat.pow 2 (scale bits - 1074) * 10 ^ 0 * one = units bits :=
      calc significand bits * 2 ^ (scale bits - 1074) * 10 ^ 0 * one
        _ = significand bits * 2 ^ (scale bits - 1074) * one := by rw [Nat.pow_zero, Nat.mul_one]
        _ = significand bits * 2 ^ (scale bits - 1074 + 1074) := by
            rw [Nat.mul_assoc, Decimal.two_pow_mul_one rfl]
        _ = significand bits * 2 ^ scale bits := by rw [Nat.sub_add_cancel hwhole]
    have hexact := Decimal.magnitude_eq_round
      ⟨false, significand bits * Nat.pow 2 (scale bits - 1074), 0⟩ 0 (by simp)
    rw [hexact]
    exact hunits ▸ hround
  · next hfraction =>
    generalize hn : 1074 - scale bits = n
    have hexp : (scale bits : Int) - 1074 + n = 0 := by omega
    have hten : (10 : Nat) ^ n = Nat.pow 5 n * Nat.pow 2 n := Nat.mul_pow 5 2 n
    have hunits : significand bits * Nat.pow 5 n * 10 ^ 0 * one = 10 ^ n * units bits := by
      rw [one_eq_mul (a := n) (b := scale bits) (by omega), Nat.pow_zero, Nat.mul_one, units, hten]
      ac_rfl
    have hexact := Decimal.magnitude_eq_round
      ⟨false, significand bits * Nat.pow 5 n, (scale bits : Int) - 1074⟩ n (by simp only; omega)
    simp only [hexp] at hexact
    calc Decimal.magnitude ⟨false, significand bits * Nat.pow 5 n, (scale bits : Int) - 1074⟩
      _ = round (significand bits * Nat.pow 5 n * 10 ^ 0 * one) (10 ^ n) := hexact
      _ = round (10 ^ n * units bits) (10 ^ n * 1) := by rw [hunits, Nat.mul_one]
      _ = round (units bits) 1 := round_mul_mul (Decimal.ten_pow_pos n) _ _
      _ = bits := hround

/-- A decimal that was tried and accepted has the magnitude. -/
theorem magnitude_of_readBack? {bits : Nat} {exponent : Int} {coefficient : Nat} {d : Decimal}
    (h : readBack? bits exponent coefficient = some d) : d.magnitude = bits := by
  simp only [readBack?] at h
  split at h
  · next heq =>
    obtain rfl := Option.some.inj h
    exact heq
  · cases h

theorem magnitude_of_onGrid? {upward : Bool} {bits : Nat} {exponent : Int} {d : Decimal}
    (h : onGrid? upward bits exponent = some d) : d.magnitude = bits := by
  simp only [onGrid?] at h
  split at h
  · cases h
  · split at h <;> rcases Option.or_eq_some_iff.mp h with hfirst | ⟨-, hsecond⟩
    · exact magnitude_of_readBack? hfirst
    · exact magnitude_of_readBack? hsecond
    · exact magnitude_of_readBack? hfirst
    · exact magnitude_of_readBack? hsecond

/-- The shortest decimal of a finite magnitude has that magnitude. -/
theorem magnitude_ofMagnitude (upward : Bool) {bits : Nat} (h : bits < infinity) :
    (ofMagnitude upward bits).magnitude = bits := by
  simp only [ofMagnitude, magnitude_dropZeros]
  cases hfound : (List.range 17).findSome?
      fun (n : Nat) => onGrid? upward bits (leadingExponent bits - n) with
  | none => exact magnitude_exact h
  | some d =>
      obtain ⟨n, -, hgrid⟩ := List.exists_of_findSome?_eq_some hfound
      exact magnitude_of_onGrid? hgrid

end Shortest

end Toolpath
