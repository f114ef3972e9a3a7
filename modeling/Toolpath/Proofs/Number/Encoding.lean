import Toolpath.Proofs.Number.Finite

/-! # The encoding of doubles

A double is its bit pattern: decoding a pattern and encoding what was decoded
changes nothing. So a double is also told by its sign bit and its magnitude.
-/

namespace Toolpath

section Packing

open Float.Model UnpackedFloat

theorem toNat_append {m n : Nat} (x : BitVec m) (y : BitVec n) :
    (x ++ y).toNat = x.toNat * 2 ^ n + y.toNat := by
  rw [BitVec.toNat_append, ← Nat.shiftLeft_add_eq_or_of_lt y.isLt, Nat.shiftLeft_eq]

theorem toNat_one_append {n : Nat} (m : BitVec n) : (1#1 ++ m).toNat = 2 ^ n + m.toNat := by
  rw [toNat_append]
  exact congrArg (· + m.toNat) (Nat.one_mul _)

theorem toBitVec_ofBitVec (s : BitVec 1) : (Sign.ofBitVec s).toBitVec = s := by
  revert s
  decide

/-- A pattern is put together from its sign, its exponent and its significand. -/
theorem packComponents_unpack (b : BitVec Format.binary64.numBits) :
    packComponents Format.binary64 (.ofBitVec (unpackSign b)) (unpackExponent b)
      (unpackMantissa b) = b := by
  have hsign : (unpackSign b).toNat = b.toNat / 2 ^ 63 % 2 := by
    rw [← Nat.shiftRight_eq_div_pow]
    rfl
  have hexponent : (unpackExponent b).toNat = b.toNat / 2 ^ 52 % 2 ^ 11 := by
    rw [← Nat.shiftRight_eq_div_pow]
    rfl
  have hmantissa : (unpackMantissa b).toNat = b.toNat % 2 ^ 52 := rfl
  have hlt : b.toNat < 2 ^ 64 := b.isLt
  apply BitVec.eq_of_toNat_eq
  rw [packComponents, toBitVec_ofBitVec, toNat_append, toNat_append, hsign, hexponent, hmantissa]
  change (b.toNat / 2 ^ 63 % 2 * 2 ^ 11 + _) * 2 ^ 52 + _ = _
  omega

/-- A short significand is stored as it is. -/
theorem pack_subnormal (s : Sign) (m : BitVec 52) (hm : 0 < m.toNat) :
    UnpackedFloat.pack Format.binary64 (.finite s m.toNat (-1074) hm) =
      packComponents Format.binary64 s 0#11 m := by
  have hlog : m.toNat.log2 < 52 := (Nat.log2_lt (Nat.ne_of_gt hm)).mpr m.isLt
  have hbias : Format.binary64.exponentBias = 1023 := rfl
  have hbits : 2 ^ Format.binary64.exponentBits = 2048 := rfl
  have hplaces : Format.binary64.mantissaBits = 53 := rfl
  delta UnpackedFloat.pack
  dsimp only
  rw [hbias, hbits, hplaces, if_neg (by decide), if_neg (by omega), BitVec.ofNat_toNat,
    BitVec.setWidth_eq]

/-- A significand of full length is stored without its leading one. -/
theorem pack_normal (s : Sign) (e : BitVec 11) (he : e.toNat < 2047) (m : BitVec 52)
    (hm : 0 < (1#1 ++ m).toNat) :
    UnpackedFloat.pack Format.binary64 (.finite s (1#1 ++ m).toNat (e.toNat - 1075) hm) =
      packComponents Format.binary64 s e m := by
  have hman : m.toNat < 2 ^ 52 := m.isLt
  have hlog : (1#1 ++ m).toNat.log2 = 52 := by
    rw [toNat_one_append]
    refine (Nat.log2_eq_iff (by omega)).mpr ⟨Nat.le_add_right _ _, ?_⟩
    omega
  have hbias : Format.binary64.exponentBias = 1023 := rfl
  have hbits : 2 ^ Format.binary64.exponentBits = 2048 := rfl
  have hplaces : Format.binary64.mantissaBits = 53 := rfl
  have hsame : ((e.toNat : Int) - 1075 + (1023 : Nat) + (52 : Nat)).toNat = e.toNat := by omega
  have hstored : BitVec.ofNat 52 (1#1 ++ m).toNat = m := by
    apply BitVec.eq_of_toNat_eq
    rw [BitVec.toNat_ofNat, toNat_one_append, Nat.add_mod_left]
    exact Nat.mod_eq_of_lt hman
  delta UnpackedFloat.pack
  dsimp only
  rw [hbias, hbits, hplaces, hsame, if_neg (by omega), if_pos (by omega), hstored,
    BitVec.ofNat_toNat, BitVec.setWidth_eq]

/-- Encoding a decoded pattern gives the pattern back. -/
theorem pack_unpack {b : BitVec Format.binary64.numBits} (h : Format.binary64.Valid b) :
    UnpackedFloat.pack Format.binary64 (UnpackedFloat.unpack Format.binary64 b) = b := by
  have hwhole := packComponents_unpack b
  have hones := Number.exponent_eq_allOnes_iff b
  have hexp : (unpackExponent b).toNat < 2 ^ 11 := (unpackExponent b).isLt
  delta UnpackedFloat.unpack
  by_cases hexponent : unpackExponent b = -1#_
  · rw [if_pos hexponent]
    by_cases hmantissa : unpackMantissa b = 0#_
    · rw [if_pos hmantissa]
      rwa [hexponent, hmantissa] at hwhole
    · rw [if_neg hmantissa]
      exact (h.eq_packedNaN hexponent hmantissa).symm
  · have hlt := mt hones.mpr hexponent
    rw [if_neg hexponent]
    by_cases hzero : unpackExponent b = 0#_
    · rw [if_pos hzero]
      rw [hzero] at hwhole
      by_cases hmantissa : unpackMantissa b = 0#_
      · rw [dif_pos hmantissa]
        rwa [hmantissa] at hwhole
      · rw [dif_neg hmantissa, hzero]
        exact (pack_subnormal _ (unpackMantissa b) _).trans hwhole
    · rw [if_neg hzero]
      exact (pack_normal _ (unpackExponent b) (by omega) (unpackMantissa b) _).trans hwhole

end Packing

namespace Binary64

open Float.Model UnpackedFloat

/-- A double is its bit pattern. -/
theorem ofBits_toBits (x : Float) : Float.ofBits x.toBits = x := by
  obtain ⟨model⟩ := x
  have hbits : (Float.Model.ofBits model.toBits).toBits = model.toBits :=
    congrArg UInt64.ofBitVec (pack_unpack model.valid)
  have hmodel : Float.Model.ofBits model.toBits = model := by
    cases hback : Float.Model.ofBits model.toBits with
    | mk word hvalid =>
        rw [hback] at hbits
        cases model with
        | mk word' hvalid' =>
            obtain rfl : word = word' := hbits
            rfl
  exact congrArg Float.ofModel hmodel

/-- A double is its sign bit and its magnitude. -/
theorem ofMagnitude_magnitude (x : Float) : ofMagnitude (isNegative x) (magnitude x) = x := by
  have hword : (if isNegative x then signBit + UInt64.ofNat (magnitude x)
      else UInt64.ofNat (magnitude x)) = x.toBits := by
    have hsign : signBit.toNat = 2 ^ 63 := rfl
    have hlt : x.toBits.toNat < 2 ^ 64 := x.toBits.toNat_lt
    apply UInt64.toNat_inj.mp
    rw [isNegative, magnitude]
    split
    · next hnegative =>
      rw [decide_eq_true_iff, UInt64.le_iff_toNat_le, hsign] at hnegative
      rw [UInt64.toNat_add, UInt64.toNat_ofNat', UInt64.toNat_mod, hsign]
      omega
    · next hpositive =>
      rw [decide_eq_true_iff, UInt64.le_iff_toNat_le, hsign] at hpositive
      rw [UInt64.toNat_ofNat', UInt64.toNat_mod, hsign]
      omega
  rw [ofMagnitude, hword, ofBits_toBits]

/-! ## Fields of a pattern -/

theorem toNat_unpackExponent (word : UInt64) :
    (@unpackExponent Format.binary64 word.toBitVec).toNat = word.toNat / 2 ^ 52 % 2 ^ 11 := by
  rw [← Nat.shiftRight_eq_div_pow]
  rfl

theorem toNat_unpackMantissa (word : UInt64) :
    (@unpackMantissa Format.binary64 word.toBitVec).toNat = word.toNat % 2 ^ 52 := rfl

theorem magnitude_eq_mod (x : Float) : magnitude x = x.toBits.toNat % 2 ^ 63 := by
  rw [magnitude, UInt64.toNat_mod]
  rfl

theorem isFinite_iff {x : Float} : x.isFinite = true ↔ magnitude x < infinity := by
  have hfield : x.isFinite = true ↔ x.toBits.toNat >>> 52 % 2 ^ 11 < 2047 :=
    Number.isFinite_unpack_iff x.toBits.toBitVec
  rw [hfield, Nat.shiftRight_eq_div_pow, magnitude_eq_mod]
  change _ ↔ _ < 2047 * 2 ^ 52
  omega

/-- The magnitude of a finite double is below that of infinity. -/
theorem magnitude_lt_infinity {x : Float} (h : x.isFinite = true) : magnitude x < infinity :=
  isFinite_iff.mp h

/-! ## Signs and magnitudes -/

theorem toNat_word (negative : Bool) {bits : Nat} (h : bits ≤ infinity) :
    (if negative then signBit + UInt64.ofNat bits else UInt64.ofNat bits).toNat =
      (if negative then 2 ^ 63 else 0) + bits := by
  have hbits : bits ≤ 2047 * 2 ^ 52 := h
  have hword : (UInt64.ofNat bits).toNat = bits := by
    rw [UInt64.toNat_ofNat']
    omega
  cases negative with
  | false => simp only [Bool.false_eq_true, if_false, hword, Nat.zero_add]
  | true =>
      have hsign : signBit.toNat = 2 ^ 63 := rfl
      simp only [if_true, UInt64.toNat_add, hword, hsign]
      omega

/-- The pattern of infinity is the only one up to it whose exponent is all ones. -/
theorem valid_of_toNat_eq {word : UInt64} {negative : Bool} {bits : Nat} (h : bits ≤ infinity)
    (hword : word.toNat = (if negative then 2 ^ 63 else 0) + bits) :
    Format.binary64.Valid word.toBitVec := by
  constructor
  intro hones hmantissa
  have hlarge := (Number.exponent_eq_allOnes_iff word.toBitVec).mp hones
  have hbits : bits ≤ 2047 * 2 ^ 52 := h
  refine absurd (BitVec.eq_of_toNat_eq ?_) hmantissa
  rw [toNat_unpackMantissa]
  rw [toNat_unpackExponent] at hlarge
  change word.toNat % 2 ^ 52 = 0
  cases negative <;> simp only [Bool.false_eq_true, if_true, if_false] at hword <;> omega

/-- What is put together from a sign and a magnitude has this sign and this magnitude. -/
theorem toBits_ofMagnitude (negative : Bool) {bits : Nat} (h : bits ≤ infinity) :
    (ofMagnitude negative bits).toBits.toNat = (if negative then 2 ^ 63 else 0) + bits := by
  have hword := toNat_word negative h
  have hback := pack_unpack (valid_of_toNat_eq h hword)
  rw [← hword]
  exact congrArg BitVec.toNat hback

theorem magnitude_ofMagnitude (negative : Bool) {bits : Nat} (h : bits ≤ infinity) :
    magnitude (ofMagnitude negative bits) = bits := by
  have hsign : signBit.toNat = 2 ^ 63 := rfl
  have hbits : bits ≤ 2047 * 2 ^ 52 := h
  rw [magnitude, UInt64.toNat_mod, toBits_ofMagnitude negative h, hsign]
  cases negative with
  | false =>
      simp only [Bool.false_eq_true, if_false]
      omega
  | true =>
      simp only [if_true]
      omega

theorem isNegative_ofMagnitude (negative : Bool) {bits : Nat} (h : bits ≤ infinity) :
    isNegative (ofMagnitude negative bits) = negative := by
  have hsign : signBit.toNat = 2 ^ 63 := rfl
  have hbits : bits ≤ 2047 * 2 ^ 52 := h
  have hword := toBits_ofMagnitude negative h
  cases negative with
  | false =>
      refine decide_eq_false fun hle => ?_
      rw [UInt64.le_iff_toNat_le, hword, hsign] at hle
      simp only [Bool.false_eq_true, if_false] at hle
      omega
  | true =>
      refine decide_eq_true ?_
      rw [UInt64.le_iff_toNat_le, hword, hsign]
      exact Nat.le_add_right _ _

end Binary64

end Toolpath
