import Toolpath.Proofs.Number.Packing

/-! # The arithmetic of doubles

A sum, a difference, a product or a quotient of finite doubles is the exact one,
rounded once.
-/

namespace Toolpath.Binary64

open Float.Model UnpackedFloat

/-! ## Decoding -/

theorem significand_pos {bits : Nat} (h : bits ≠ 0) : 0 < significand bits := by
  rw [significand, binade]
  split <;> omega

/-- What a finite pattern is decoded to. -/
def decoded (negative : Bool) (bits : Nat) : UnpackedFloat :=
  if h : bits = 0 then .zero (signOf negative)
  else .finite (signOf negative) (significand bits) (scale bits - 1074) (significand_pos h)

theorem ofBitVec_unpackSign (x : Float) :
    Sign.ofBitVec (@unpackSign Format.binary64 x.toBits.toBitVec) =
      signOf (isNegative x) := by
  have hlt : x.toBits.toNat < 2 ^ 64 := x.toBits.toNat_lt
  have hbit : (@unpackSign Format.binary64 x.toBits.toBitVec).toNat =
      x.toBits.toNat / 2 ^ 63 % 2 := by
    rw [← Nat.shiftRight_eq_div_pow]
    rfl
  have hsign : isNegative x = decide (2 ^ 63 ≤ x.toBits.toNat) := by
    rw [isNegative, decide_eq_decide, UInt64.le_iff_toNat_le]
    rfl
  rw [hsign, Sign.ofBitVec]
  by_cases hnegative : 2 ^ 63 ≤ x.toBits.toNat
  · rw [if_neg, decide_eq_true hnegative]
    · rfl
    · intro hzero
      rw [hzero] at hbit
      change 0 = _ at hbit
      omega
  · rw [if_pos, decide_eq_false hnegative]
    · rfl
    · apply BitVec.eq_of_toNat_eq
      rw [hbit]
      change _ = 0
      omega

/-- A finite double is decoded to its sign, its significand and its scale. -/
theorem unpack_eq_decoded {x : Float} (h : x.isFinite = true) :
    x.toModel.unpack = decoded (isNegative x) (magnitude x) := by
  have hexponent := toNat_unpackExponent x.toBits
  have hmantissa := toNat_unpackMantissa x.toBits
  have hmagnitude := magnitude_eq_mod x
  have hfield := (Number.isFinite_unpack_iff x.toBits.toBitVec).mp h
  have hones := Number.exponent_eq_allOnes_iff x.toBits.toBitVec
  have hbias : Format.binary64.exponentBias = 1023 := rfl
  have hsign := ofBitVec_unpackSign x
  change UnpackedFloat.unpack Format.binary64 x.toBits.toBitVec = _
  delta UnpackedFloat.unpack
  dsimp only
  rw [if_neg (by rw [hones]; omega), hsign, hbias]
  by_cases hsub : @unpackExponent Format.binary64 x.toBits.toBitVec = 0#_
  · have hexp : x.toBits.toNat / 2 ^ 52 % 2 ^ 11 = 0 := by
      rw [← hexponent, hsub]
      rfl
    have hsmall : magnitude x < binade := by
      simp only [binade]
      omega
    have hsame : x.toBits.toNat % 2 ^ 52 = magnitude x := by omega
    rw [if_pos hsub]
    by_cases hzero : @unpackMantissa Format.binary64 x.toBits.toBitVec = 0#_
    · have hnone : magnitude x = 0 := by
        rw [← hsame, ← hmantissa, hzero]
        rfl
      rw [dif_pos hzero, decoded, dif_pos hnone]
    · have hsome : magnitude x ≠ 0 := by
        rw [← hsame, ← hmantissa]
        exact fun hnone => hzero (BitVec.eq_of_toNat_eq hnone)
      rw [dif_neg hzero, decoded, dif_neg hsome, UnpackedFloat.finite.injEq]
      refine ⟨rfl, ?_, ?_⟩
      · rw [hmantissa, hsame, significand, if_pos hsmall]
      · rw [hexponent, hexp, scale, Nat.div_eq_of_lt hsmall]
        rfl
  · have hexp : x.toBits.toNat / 2 ^ 52 % 2 ^ 11 ≠ 0 := by
      rw [← hexponent]
      exact fun hnone => hsub (BitVec.eq_of_toNat_eq hnone)
    have hlarge : ¬magnitude x < binade := by
      simp only [binade]
      omega
    have hsome : magnitude x ≠ 0 := by omega
    rw [if_neg hsub, decoded, dif_neg hsome, UnpackedFloat.finite.injEq]
    refine ⟨rfl, ?_, ?_⟩
    · rw [toNat_one_append, hmantissa, significand, if_neg hlarge, hmagnitude]
      simp only [binade]
      omega
    · rw [hexponent, scale, hmagnitude]
      simp only [binade]
      omega

/-- A pattern has a significand of full length unless it is on the smallest scale. -/
theorem scale_eq_zero_or (bits : Nat) : scale bits = 0 ∨ 2 ^ 52 ≤ significand bits := by
  by_cases hsub : bits < binade
  · exact .inl (by rw [scale, Nat.div_eq_of_lt hsub])
  · right
    rw [significand, if_neg hsub]
    exact Nat.le_add_right _ _

theorem scale_mul_binade_add (bits : Nat) : scale bits * binade + significand bits = bits := by
  by_cases hsub : bits < binade
  · rw [scale, Nat.div_eq_of_lt hsub, significand, if_pos hsub, Nat.zero_mul, Nat.zero_add]
  · rw [scale, significand, if_neg hsub]
    simp only [binade] at hsub ⊢
    omega

theorem units_zero : units 0 = 0 := by decide

theorem units_pos {bits : Nat} (h : bits ≠ 0) : 0 < units bits :=
  Nat.mul_pos (significand_pos h) (Nat.two_pow_pos _)

theorem round_zero {den : Nat} (hden : 0 < den) : round 0 den = 0 :=
  round_of_lt (by omega)

theorem decoded_eq_finite (negative : Bool) {bits : Nat} (h : bits ≠ 0) :
    decoded negative bits =
      .finite (signOf negative) (significand bits) (scale bits - 1074) (significand_pos h) :=
  dif_neg h

/-- Encoding a decoded pattern gives the pattern back. -/
theorem ofModel_pack_decoded (negative : Bool) {bits : Nat} (h : bits < infinity) :
    Float.ofModel (Float.Model.pack (decoded negative bits)) = ofMagnitude negative bits := by
  by_cases hzero : bits = 0
  · rw [hzero]
    exact ofModel_pack_zero negative
  · rw [decoded_eq_finite negative hzero,
      ofModel_pack_finite negative _ (Number.significand_lt bits) (scale_eq_zero_or bits),
      scale_mul_binade_add, Nat.min_eq_left (Nat.le_of_lt h)]

/-! ## Products and quotients -/

theorem signOf_mul (a b : Bool) : signOf a * signOf b = signOf (a ^^ b) := by
  cases a <;> cases b <;> rfl

theorem signOf_div (a b : Bool) : signOf a / signOf b = signOf (a ^^ b) := by
  cases a <;> cases b <;> rfl

theorem one_pos : 0 < one := by decide +kernel

theorem mul_decoded_of_zero (a b : Bool) {m n : Nat} (h : m = 0 ∨ n = 0) :
    UnpackedFloat.mul Format.binary64 (decoded a m) (decoded b n) = .zero (signOf (a ^^ b)) := by
  rw [← signOf_mul]
  by_cases hm : m = 0
  · by_cases hn : n = 0
    · rw [hm, hn]
      rfl
    · rw [hm, decoded_eq_finite b hn]
      rfl
  · rw [h.resolve_left hm, decoded_eq_finite a hm]
    rfl

/-- The product of two significands is of full length unless both are on the smallest scale. -/
theorem le_log2_mul_significand {a b : Nat} (ha : a ≠ 0) (hb : b ≠ 0) :
    (scale a = 0 ∧ scale b = 0) ∨ 52 ≤ (significand a * significand b).log2 := by
  have hposa := significand_pos ha
  have hposb := significand_pos hb
  rw [Nat.le_log2 (Nat.ne_of_gt (Nat.mul_pos hposa hposb))]
  rcases scale_eq_zero_or a with hsmall | hfull
  · rcases scale_eq_zero_or b with hsmall' | hfull
    · exact .inl ⟨hsmall, hsmall'⟩
    · exact .inr (Nat.le_trans hfull (Nat.le_mul_of_pos_left _ hposa))
  · exact .inr (Nat.le_trans hfull (Nat.le_mul_of_pos_right _ hposb))

/-- A product of finite doubles is the exact product, rounded once. -/
theorem mul_eq {x y : Float} (hx : x.isFinite = true) (hy : y.isFinite = true) :
    x * y = ofMagnitude (isNegative x ^^ isNegative y)
      (round (units (magnitude x) * units (magnitude y)) one) := by
  change Float.ofModel (Float.Model.pack (UnpackedFloat.mul Format.binary64 x.toModel.unpack
    y.toModel.unpack)) = _
  rw [unpack_eq_decoded hx, unpack_eq_decoded hy]
  generalize magnitude x = a, magnitude y = b
  by_cases hzero : a = 0 ∨ b = 0
  · have hnone : units a * units b = 0 := by
      rcases hzero with rfl | rfl
      · rw [units_zero, Nat.zero_mul]
      · rw [units_zero, Nat.mul_zero]
    rw [mul_decoded_of_zero _ _ hzero, ofModel_pack_zero, hnone, round_zero one_pos]
  obtain ⟨ha, hb⟩ := not_or.mp hzero
  have hlog : (scale a : Int) - 1074 + (scale b - 1074) ≤ -1074 ∨
      52 ≤ (significand a * significand b / 1).log2 := by
    rw [Nat.div_one]
    exact (le_log2_mul_significand ha hb).imp_left fun h => by omega
  have hexact := ofModel_pack_round (isNegative x ^^ isNegative y) (significand a * significand b)
    Nat.one_pos hlog
  rw [Nat.div_one, Nat.mod_one, ← signOf_mul] at hexact
  rw [decoded_eq_finite _ ha, decoded_eq_finite _ hb]
  refine hexact.trans (congrArg _ (round_eq_round ?_ one_pos ?_))
  · exact Nat.mul_pos Nat.one_pos (Nat.two_pow_pos _)
  · generalize htop : ((scale a : Int) - 1074 + (scale b - 1074) + 1074).toNat = top
    generalize hbottom : (-((scale a : Int) - 1074 + (scale b - 1074) + 1074)).toNat = bottom
    have hsum : top + 1074 = scale a + scale b + bottom := by omega
    calc significand a * significand b * 2 ^ top * one
      _ = significand a * significand b * (2 ^ top * one) := Nat.mul_assoc ..
      _ = significand a * significand b * 2 ^ (scale a + scale b + bottom) := by
          rw [Decimal.two_pow_mul_one rfl, hsum]
      _ = significand a * 2 ^ scale a * (significand b * 2 ^ scale b) * (1 * 2 ^ bottom) := by
          rw [Nat.pow_add, Nat.pow_add, Nat.one_mul]
          ac_rfl

/-- A dividend that is longer by as much gives a quotient of full length. -/
theorem le_log2_shiftLeft_div {num den n : Nat} (hnum : num ≠ 0) (hden : 0 < den)
    (h : 52 + (den.log2 + 1) ≤ num.log2 + n) : 52 ≤ (num <<< n / den).log2 := by
  have hquot : 2 ^ 52 ≤ num <<< n / den := by
    rw [Nat.le_div_iff_mul_le hden, Nat.shiftLeft_eq]
    calc 2 ^ 52 * den
      _ ≤ 2 ^ 52 * 2 ^ (den.log2 + 1) := Nat.mul_le_mul_left _ (Nat.le_of_lt Nat.lt_log2_self)
      _ = 2 ^ (52 + (den.log2 + 1)) := (Nat.pow_add ..).symm
      _ ≤ 2 ^ (num.log2 + n) := Nat.pow_le_pow_right (by decide) h
      _ = 2 ^ num.log2 * 2 ^ n := Nat.pow_add ..
      _ ≤ num * 2 ^ n := Nat.mul_le_mul_right _ (Nat.log2_self_le hnum)
  have hne : num <<< n / den ≠ 0 := Nat.ne_of_gt (Nat.lt_of_lt_of_le (Nat.two_pow_pos _) hquot)
  exact (Nat.le_log2 hne).mpr hquot

/-- A quotient of finite doubles is the exact quotient, rounded once. -/
theorem div_eq {x y : Float} (hx : x.isFinite = true) (hy : y.isFinite = true)
    (h : magnitude y ≠ 0) :
    x / y = ofMagnitude (isNegative x ^^ isNegative y)
      (round (units (magnitude x) * one) (units (magnitude y))) := by
  change Float.ofModel (Float.Model.pack (UnpackedFloat.div Format.binary64 x.toModel.unpack
    y.toModel.unpack)) = _
  rw [unpack_eq_decoded hx, unpack_eq_decoded hy]
  generalize magnitude x = a, magnitude y = b at h ⊢
  by_cases ha : a = 0
  · have hzero : UnpackedFloat.div Format.binary64 (decoded (isNegative x) a)
        (decoded (isNegative y) b) = .zero (signOf (isNegative x) / signOf (isNegative y)) := by
      rw [ha, decoded_eq_finite _ h]
      rfl
    rw [hzero, signOf_div, ofModel_pack_zero, ha, units_zero, Nat.zero_mul,
      round_zero (units_pos h)]
  have hposa := significand_pos ha
  have hposb := significand_pos h
  have hmin : Format.binary64.minExponent = -1074 := rfl
  have hbits : Format.binary64.mantissaBits = 53 := rfl
  rw [decoded_eq_finite _ ha, decoded_eq_finite _ h]
  dsimp only [UnpackedFloat.div, divCore]
  rw [signOf_div]
  generalize ht : min ((scale a : Int) - 1074 - (scale b - 1074)) (Format.binary64.targetExponent
    (totalExponent (significand a) (scale a - 1074) -
      totalExponent (significand b) (scale b - 1074))) = t
  simp only [Format.targetExponent, totalExponent, hmin, hbits] at ht
  generalize hn : ((scale a : Int) - 1074 - (scale b - 1074) - t).toNat = n
  -- The dividend is made so long that the whole part of the quotient has 53 bits.
  have hlog : t ≤ -1074 ∨ 52 ≤ (significand a <<< n / significand b).log2 := by
    by_cases hlow : t ≤ -1074
    · exact .inl hlow
    · exact .inr (le_log2_shiftLeft_div (Nat.ne_of_gt hposa) hposb (by omega))
  refine (ofModel_pack_round _ _ hposb hlog).trans (congrArg _ (round_eq_round ?_ (units_pos h) ?_))
  · exact Nat.mul_pos hposb (Nat.two_pow_pos _)
  · generalize htop : (t + 1074).toNat = top
    generalize hbottom : (-(t + 1074)).toNat = bottom
    have hsum : n + top + scale b = scale a + 1074 + bottom := by omega
    calc significand a <<< n * 2 ^ top * (significand b * 2 ^ scale b)
      _ = significand a * significand b * 2 ^ (n + top + scale b) := by
          rw [Nat.shiftLeft_eq, Nat.mul_assoc (significand a), Nat.mul_mul_mul_comm,
            ← Nat.pow_add, ← Nat.pow_add]
      _ = significand a * significand b * (2 ^ (scale a + bottom) * one) := by
          rw [Decimal.two_pow_mul_one rfl, hsum, Nat.add_right_comm]
      _ = significand a * 2 ^ scale a * one * (significand b * 2 ^ bottom) := by
          rw [Nat.mul_assoc (significand a) _ one,
            Nat.mul_mul_mul_comm (significand a) _ (significand b), Nat.pow_add,
            Nat.mul_right_comm (2 ^ scale a)]

/-! ## Whole numbers -/

/-- One is a power of two; the power is a variable so that it is not computed. -/
theorem two_pow_eq_one {m : Nat} (h : m = 1074) : 2 ^ m = one := by
  rw [one_eq_mul (a := m) (b := 0) h]
  exact (Nat.mul_one _).symm

/-- A whole number is converted to the double nearest to it. -/
theorem toFloat_eq (n : UInt64) : n.toFloat = ofMagnitude false (round (n.toNat * one) 1) := by
  have hpow : 2 ^ ((0 : Int) + 1074).toNat = one := two_pow_eq_one (by omega)
  change Float.ofModel (Float.Model.pack (normalize Format.binary64 n.toNat 0 .positive)) = _
  by_cases hzero : n.toNat = 0
  · rw [hzero, Nat.zero_mul, round_zero Nat.one_pos]
    exact ofModel_pack_zero false
  · have hpos : (0 : Int) < n.toNat := by omega
    have hcompare : compare (n.toNat : Int) 0 = .gt := Int.compare_eq_gt.mpr hpos
    simp only [UnpackedFloat.normalize, hcompare, Int.toNat_natCast]
    rw [← hpow]
    exact ofModel_pack_scaled false (e := 0) (Nat.pos_of_ne_zero hzero)

/-! ## Sums and differences -/

/-- How many units a finite pattern stands for, with its sign. -/
def signedUnits (negative : Bool) (bits : Nat) : Int :=
  if negative then -(units bits : Int) else units bits

/-- How many units a finite double stands for. -/
def value (x : Float) : Int :=
  signedUnits (isNegative x) (magnitude x)

theorem natAbs_signedUnits (negative : Bool) (bits : Nat) :
    (signedUnits negative bits).natAbs = units bits := by
  cases negative with
  | false => rfl
  | true => exact Int.natAbs_neg _

theorem natAbs_value (x : Float) : (value x).natAbs = units (magnitude x) :=
  natAbs_signedUnits _ _

theorem signedUnits_zero (negative : Bool) : signedUnits negative 0 = 0 := by
  cases negative <;> rfl

theorem signedUnits_not (negative : Bool) (bits : Nat) :
    signedUnits (!negative) bits = -signedUnits negative bits := by
  cases negative with
  | false => rfl
  | true => exact (Int.neg_neg _).symm

theorem signedUnits_neg_iff (negative : Bool) {bits : Nat} (h : bits ≠ 0) :
    signedUnits negative bits < 0 ↔ negative = true := by
  have hpos := units_pos h
  cases negative with
  | false => simp [signedUnits]
  | true => exact iff_of_true (Int.neg_neg_of_pos (Int.natCast_pos.mpr hpos)) rfl

/-- A whole number of units on a common scale is encoded in the nearest pattern. -/
theorem ofModel_pack_normalize (m : Int) (k : Nat) :
    Float.ofModel (Float.Model.pack (normalize Format.binary64 m (k - 1074) .positive)) =
      ofMagnitude (decide (m < 0)) (round (m.natAbs * 2 ^ k) 1) := by
  have hup : ((k : Int) - 1074 + 1074).toNat = k := by omega
  have hdown : (-((k : Int) - 1074 + 1074)).toNat = 0 := by omega
  rcases Int.lt_trichotomy m 0 with hneg | rfl | hpos
  · have hcompare : compare m 0 = .lt := Int.compare_eq_lt.mpr hneg
    have habs : (-m).toNat = m.natAbs := by omega
    have hscaled := ofModel_pack_scaled true (m := m.natAbs) (e := k - 1074) (by omega)
    rw [hup, hdown, Nat.pow_zero] at hscaled
    simp only [UnpackedFloat.normalize, hcompare, habs, hneg, decide_true]
    exact hscaled
  · rw [Int.natAbs_zero, Nat.zero_mul, round_zero Nat.one_pos]
    exact ofModel_pack_zero false
  · have hcompare : compare m 0 = .gt := Int.compare_eq_gt.mpr hpos
    have habs : m.toNat = m.natAbs := by omega
    have hscaled := ofModel_pack_scaled false (m := m.natAbs) (e := k - 1074) (by omega)
    rw [hup, hdown, Nat.pow_zero] at hscaled
    simp only [UnpackedFloat.normalize, hcompare, habs, Int.not_lt.mpr (Int.le_of_lt hpos),
      decide_false]
    exact hscaled

/-- Units on a common scale that is not above that of the pattern. -/
theorem apply_shiftLeft (negative : Bool) {bits k : Nat} (h : k ≤ scale bits) :
    (signOf negative).apply (significand bits <<< (scale bits - k) : Nat) * (2 ^ k : Nat) =
      signedUnits negative bits := by
  have hunits : significand bits <<< (scale bits - k) * 2 ^ k = units bits := by
    rw [Nat.shiftLeft_eq, Nat.mul_assoc, ← Nat.pow_add, Nat.sub_add_cancel h]
    rfl
  cases negative with
  | false =>
      change ((significand bits <<< (scale bits - k) : Nat) : Int) * (2 ^ k : Nat) = units bits
      rw [← hunits, Int.natCast_mul]
  | true =>
      change -((significand bits <<< (scale bits - k) : Nat) : Int) * (2 ^ k : Nat) = -units bits
      rw [← hunits, Int.natCast_mul, Int.neg_mul]

theorem add_decoded_finite (a b : Bool) {m n : Nat} (hm : m ≠ 0) (hn : n ≠ 0) :
    Float.ofModel (Float.Model.pack
        (UnpackedFloat.add Format.binary64 (decoded a m) (decoded b n))) =
      ofMagnitude (decide (signedUnits a m + signedUnits b n < 0))
        (round (signedUnits a m + signedUnits b n).natAbs 1) := by
  generalize hk : min (scale m) (scale n) = k
  have hsmaller : min ((scale m : Int) - 1074) (scale n - 1074) = k - 1074 := by omega
  have hshift : ((scale m : Int) - 1074 - (k - 1074)).toNat = scale m - k := by omega
  have hshift' : ((scale n : Int) - 1074 - (k - 1074)).toNat = scale n - k := by omega
  rw [decoded_eq_finite a hm, decoded_eq_finite b hn]
  dsimp only [UnpackedFloat.add, decreaseExponent]
  rw [hsmaller, hshift, hshift', ofModel_pack_normalize]
  generalize hsum : (signOf a).apply (significand m <<< (scale m - k) : Nat) +
    (signOf b).apply (significand n <<< (scale n - k) : Nat) = sum
  have hvalue : sum * (2 ^ k : Nat) = signedUnits a m + signedUnits b n := by
    rw [← hsum, Int.add_mul, apply_shiftLeft a (by omega), apply_shiftLeft b (by omega)]
  have hpos : (0 : Int) < (2 ^ k : Nat) := Int.natCast_pos.mpr (Nat.two_pow_pos k)
  have hsign : sum < 0 ↔ signedUnits a m + signedUnits b n < 0 := by
    rw [← hvalue, ← Int.mul_lt_mul_right hpos, Int.zero_mul]
  rw [← hvalue, Int.natAbs_mul, Int.natAbs_natCast, hvalue, decide_eq_decide.mpr hsign]

/-- A sum of decoded patterns is the exact sum, rounded once. A sum of zeros is positive unless
both of them are negative. -/
theorem add_decoded (a b : Bool) {m n : Nat} (hm : m < infinity) (hn : n < infinity) :
    Float.ofModel (Float.Model.pack
        (UnpackedFloat.add Format.binary64 (decoded a m) (decoded b n))) =
      ofMagnitude (decide (signedUnits a m + signedUnits b n < 0) || (a && b))
        (round (signedUnits a m + signedUnits b n).natAbs 1) := by
  by_cases hzero : m = 0
  · by_cases hzero' : n = 0
    · have hsum : UnpackedFloat.add Format.binary64 (decoded a m) (decoded b n) =
          .zero (signOf (a && b)) := by
        rw [hzero, hzero']
        cases a <;> cases b <;> rfl
      rw [hsum, ofModel_pack_zero, hzero, hzero', signedUnits_zero, signedUnits_zero,
        Int.add_zero, Int.natAbs_zero, round_zero Nat.one_pos,
        decide_eq_false (Int.lt_irrefl 0), Bool.false_or]
    · have hsum : UnpackedFloat.add Format.binary64 (decoded a m) (decoded b n) = decoded b n := by
        rw [hzero, decoded_eq_finite b hzero']
        rfl
      have hsign := signedUnits_neg_iff b hzero'
      have hsame : (decide (b = true) || (a && b)) = b := by cases a <;> cases b <;> rfl
      rw [hsum, ofModel_pack_decoded b hn, hzero, signedUnits_zero, Int.zero_add,
        natAbs_signedUnits, round_units hn, decide_eq_decide.mpr hsign, hsame]
  · by_cases hzero' : n = 0
    · have hsum : UnpackedFloat.add Format.binary64 (decoded a m) (decoded b n) = decoded a m := by
        rw [hzero', decoded_eq_finite a hzero]
        rfl
      have hsign := signedUnits_neg_iff a hzero
      have hsame : (decide (a = true) || (a && b)) = a := by cases a <;> cases b <;> rfl
      rw [hsum, ofModel_pack_decoded a hm, hzero', signedUnits_zero, Int.add_zero,
        natAbs_signedUnits, round_units hm, decide_eq_decide.mpr hsign, hsame]
    · have hboth : (a && b) = true → signedUnits a m + signedUnits b n < 0 := by
        intro h
        rw [Bool.and_eq_true] at h
        have hleft := (signedUnits_neg_iff a hzero).mpr h.1
        have hright := (signedUnits_neg_iff b hzero').mpr h.2
        omega
      rw [add_decoded_finite a b hzero hzero']
      cases hsign : (a && b) with
      | false => rw [Bool.or_false]
      | true => rw [decide_eq_true (hboth hsign), Bool.true_or]

theorem neg_signOf (negative : Bool) : -signOf negative = signOf (!negative) := by
  cases negative <;> rfl

/-- A difference is the sum with the opposite. -/
theorem sub_decoded (a b : Bool) (m n : Nat) :
    UnpackedFloat.sub Format.binary64 (decoded a m) (decoded b n) =
      UnpackedFloat.add Format.binary64 (decoded a m) (decoded (!b) n) := by
  have hsub : ∀ k : Int, (signOf (!b)).apply k = -(signOf b).apply k := by
    intro k
    cases b with
    | false => rfl
    | true => exact (Int.neg_neg k).symm
  by_cases hzero : m = 0
  · by_cases hzero' : n = 0
    · subst hzero hzero'
      cases a <;> cases b <;> rfl
    · rw [hzero, decoded_eq_finite b hzero', decoded_eq_finite (!b) hzero', ← neg_signOf]
      rfl
  · by_cases hzero' : n = 0
    · rw [hzero', decoded_eq_finite a hzero]
      rfl
    · rw [decoded_eq_finite a hzero, decoded_eq_finite b hzero', decoded_eq_finite (!b) hzero']
      dsimp only [UnpackedFloat.sub, UnpackedFloat.add]
      rw [hsub, Int.sub_eq_add_neg]

/-- A sum of finite doubles is the exact sum, rounded once. -/
theorem add_eq {x y : Float} (hx : x.isFinite = true) (hy : y.isFinite = true) :
    x + y = ofMagnitude (decide (value x + value y < 0) || (isNegative x && isNegative y))
      (round (value x + value y).natAbs 1) := by
  change Float.ofModel (Float.Model.pack (UnpackedFloat.add Format.binary64 x.toModel.unpack
    y.toModel.unpack)) = _
  rw [unpack_eq_decoded hx, unpack_eq_decoded hy,
    add_decoded _ _ (magnitude_lt_infinity hx) (magnitude_lt_infinity hy)]
  rfl

/-- A difference of finite doubles is the exact difference, rounded once. -/
theorem sub_eq {x y : Float} (hx : x.isFinite = true) (hy : y.isFinite = true) :
    x - y = ofMagnitude (decide (value x - value y < 0) || (isNegative x && !isNegative y))
      (round (value x - value y).natAbs 1) := by
  change Float.ofModel (Float.Model.pack (UnpackedFloat.sub Format.binary64 x.toModel.unpack
    y.toModel.unpack)) = _
  rw [unpack_eq_decoded hx, unpack_eq_decoded hy, sub_decoded,
    add_decoded _ _ (magnitude_lt_infinity hx) (magnitude_lt_infinity hy), signedUnits_not]
  rfl

/-! ## Opposites -/

theorem neg_decoded (negative : Bool) (bits : Nat) :
    UnpackedFloat.neg (decoded negative bits) = decoded (!negative) bits := by
  by_cases hzero : bits = 0
  · rw [hzero]
    exact congrArg UnpackedFloat.zero (neg_signOf negative)
  · rw [decoded_eq_finite negative hzero, decoded_eq_finite (!negative) hzero, ← neg_signOf]
    rfl

/-- The opposite of a finite double has the other sign. -/
theorem neg_ofMagnitude (negative : Bool) {bits : Nat} (h : bits < infinity) :
    -ofMagnitude negative bits = ofMagnitude (!negative) bits := by
  have hle : bits ≤ infinity := Nat.le_of_lt h
  have hfinite : (ofMagnitude negative bits).isFinite = true := by
    rw [isFinite_iff, magnitude_ofMagnitude negative hle]
    exact h
  change Float.ofModel (Float.Model.pack (UnpackedFloat.neg
    (ofMagnitude negative bits).toModel.unpack)) = _
  rw [unpack_eq_decoded hfinite, isNegative_ofMagnitude negative hle,
    magnitude_ofMagnitude negative hle, neg_decoded, ofModel_pack_decoded _ h]

end Toolpath.Binary64
