import Toolpath.Proofs.Number.Arithmetic

/-! # What overflows

An operation on doubles that are not finite is not finite either, so a finite
result tells that what went into it was. A finite square tells more: the double
is so small that adding it to another one does not overflow.
-/

namespace Toolpath.Number

open Float.Model UnpackedFloat Binary64

/-! ## Finite results -/

theorem isFinite_of_ofModel_pack {u : UnpackedFloat}
    (h : (Float.ofModel (Float.Model.pack u)).isFinite = true) : u.isFinite = true := by
  change (UnpackedFloat.unpack Format.binary64 (UnpackedFloat.pack Format.binary64 u)).isFinite
    = true at h
  cases u with
  | zero s => rfl
  | finite s m e hm => rfl
  | infinity s => cases s <;> cases h
  | notANumber => cases h

variable {x y : Float}

theorem isFinite_of_add (h : (x + y).isFinite = true) :
    x.isFinite = true ∧ y.isFinite = true := by
  have hsum : (UnpackedFloat.add Format.binary64 x.toModel.unpack y.toModel.unpack).isFinite
    = true := isFinite_of_ofModel_pack h
  change x.toModel.unpack.isFinite = true ∧ y.toModel.unpack.isFinite = true
  revert hsum
  generalize x.toModel.unpack = u, y.toModel.unpack = v
  rcases u with ⟨_ | _⟩ | _ | _ | _ <;> rcases v with ⟨_ | _⟩ | _ | _ | _ <;> intro hsum <;>
    first | exact ⟨rfl, rfl⟩ | cases hsum

theorem isFinite_of_mul_self (h : (x * x).isFinite = true) : x.isFinite = true := by
  have hsquare : (UnpackedFloat.mul Format.binary64 x.toModel.unpack x.toModel.unpack).isFinite
    = true := isFinite_of_ofModel_pack h
  change x.toModel.unpack.isFinite = true
  revert hsquare
  generalize x.toModel.unpack = u
  rcases u with ⟨_ | _⟩ | _ | _ | _ <;> intro hsquare <;> first | rfl | cases hsquare

theorem isFinite_of_sqrt (h : x.sqrt.isFinite = true) : x.isFinite = true := by
  have hroot : (UnpackedFloat.sqrt Format.binary64 x.toModel.unpack).isFinite = true :=
    isFinite_of_ofModel_pack h
  change x.toModel.unpack.isFinite = true
  revert hroot
  generalize x.toModel.unpack = u
  rcases u with ⟨_ | _⟩ | _ | _ | _ <;> intro hroot <;> first | rfl | cases hroot

theorem isFinite_of_div (h : (x / y).isFinite = true) : x.isFinite = true := by
  have hquot : (UnpackedFloat.div Format.binary64 x.toModel.unpack y.toModel.unpack).isFinite
    = true := isFinite_of_ofModel_pack h
  change x.toModel.unpack.isFinite = true
  revert hquot
  generalize x.toModel.unpack = u, y.toModel.unpack = v
  rcases u with ⟨_ | _⟩ | _ | _ | _ <;> rcases v with ⟨_ | _⟩ | _ | _ | _ <;>
    intro hquot <;> first | rfl | cases hquot

end Toolpath.Number

namespace Toolpath.Binary64

/-! ## Magnitudes of results -/

theorem round_le_infinity (num den : Nat) : round num den ≤ infinity := Nat.min_le_right _ _

theorem isFinite_ofMagnitude_iff (negative : Bool) {bits : Nat} (h : bits ≤ infinity) :
    (ofMagnitude negative bits).isFinite = true ↔ bits < infinity := by
  rw [isFinite_iff, magnitude_ofMagnitude negative h]

variable {x y : Float}

theorem magnitude_mul (hx : x.isFinite = true) (hy : y.isFinite = true) :
    magnitude (x * y) = round (units (magnitude x) * units (magnitude y)) one := by
  rw [mul_eq hx hy, magnitude_ofMagnitude _ (round_le_infinity _ _)]

theorem magnitude_add (hx : x.isFinite = true) (hy : y.isFinite = true) :
    magnitude (x + y) = round (value x + value y).natAbs 1 := by
  rw [add_eq hx hy, magnitude_ofMagnitude _ (round_le_infinity _ _)]

theorem magnitude_sub (hx : x.isFinite = true) (hy : y.isFinite = true) :
    magnitude (x - y) = round (value x - value y).natAbs 1 := by
  rw [sub_eq hx hy, magnitude_ofMagnitude _ (round_le_infinity _ _)]

theorem magnitude_div (hx : x.isFinite = true) (hy : y.isFinite = true) (h : magnitude y ≠ 0) :
    magnitude (x / y) = round (units (magnitude x) * one) (units (magnitude y)) := by
  rw [div_eq hx hy h, magnitude_ofMagnitude _ (round_le_infinity _ _)]

theorem magnitude_toFloat (n : UInt64) : magnitude n.toFloat = round (n.toNat * one) 1 := by
  rw [toFloat_eq, magnitude_ofMagnitude _ (round_le_infinity _ _)]

theorem units_le_units {m n : Nat} (h : m ≤ n) (hn : n < infinity) : units m ≤ units n := by
  rcases Nat.lt_or_eq_of_le h with hlt | rfl
  · exact Nat.le_of_lt (units_lt_units hlt hn)
  · exact Nat.le_refl _

/-- The pattern of the number one. -/
def onePattern : Nat := 0x3FF * binade

theorem units_onePattern : units onePattern = one := by decide +kernel

/-- A factor that is at most one makes nothing larger. -/
theorem magnitude_mul_le (hx : x.isFinite = true) (hy : y.isFinite = true)
    (h : magnitude y ≤ onePattern) : magnitude (x * y) ≤ magnitude x := by
  have hfactor : units (magnitude y) ≤ one := by
    rw [← units_onePattern]
    exact units_le_units h (by decide)
  calc magnitude (x * y)
    _ = round (units (magnitude x) * units (magnitude y)) one := magnitude_mul hx hy
    _ ≤ round (units (magnitude x)) 1 := round_le_round one_pos Nat.one_pos (by
        rw [Nat.mul_one]
        exact Nat.mul_le_mul_left _ hfactor)
    _ = magnitude x := round_units (isFinite_iff.mp hx)

/-- A double whose square is finite is far below the largest one; the power is a variable so that
it is not computed. -/
theorem units_lt_of_mul_self {k : Nat} (hk : k = 1587) (hx : x.isFinite = true)
    (h : (x * x).isFinite = true) : units (magnitude x) < 2 ^ k := by
  refine Nat.lt_of_not_le fun hlarge => ?_
  have hinf : round (units (magnitude x) * units (magnitude x)) one = infinity := by
    have hsquare : 2 ^ 2100 * one ≤ units (magnitude x) * units (magnitude x) := by
      rw [Decimal.two_pow_mul_one rfl, show 2100 + 1074 = k + k by omega, Nat.pow_add]
      exact Nat.mul_le_mul hlarge hlarge
    exact round_of_le (by decide) one_pos hsquare
  rw [isFinite_iff, magnitude_mul hx hx, hinf] at h
  exact Nat.lt_irrefl _ h

/-- What is small beside the largest double may be added to any finite double. -/
theorem isFinite_add {k : Nat} (hk : k = 1587) (hx : x.isFinite = true) (hy : y.isFinite = true)
    (h : units (magnitude y) < 2 ^ k) : (x + y).isFinite = true := by
  generalize hlast : k + 457 = last
  have hx' := units_le (k := last + 1) (isFinite_iff.mp hx) (by omega)
  have hpow : 2 ^ k ≤ 2 ^ last := Nat.pow_le_pow_right (by decide) (by omega)
  have hsum : (value x + value y).natAbs ≤ units (magnitude x) + units (magnitude y) := by
    have hle := Int.natAbs_add_le (value x) (value y)
    rwa [natAbs_value, natAbs_value] at hle
  rw [isFinite_iff, magnitude_add hx hy]
  refine round_lt_infinity (k := last) (by omega) ?_
  rw [pow_succ 2 last] at hx'
  generalize 2 ^ last = p at hx' hpow ⊢
  omega

/-- A whole number divided by one that is not smaller is at most one. -/
theorem magnitude_ratio_le {i n : UInt64} (hi : i.toNat ≤ n.toNat) (hn : n.toNat ≠ 0) :
    (i.toFloat / n.toFloat).isFinite = true ∧ magnitude (i.toFloat / n.toFloat) ≤ onePattern := by
  have hone : round one 1 = onePattern := by
    rw [← units_onePattern]
    exact round_units (by decide)
  have hbelow (m : UInt64) : magnitude m.toFloat < infinity := by
    obtain ⟨j, hj⟩ : ∃ j, j = 64 := ⟨_, rfl⟩
    have hm : m.toNat < 2 ^ j := hj ▸ m.toNat_lt
    rw [magnitude_toFloat]
    refine round_lt_infinity (k := j + 1980) (by omega) ?_
    calc m.toNat * one
      _ < 2 ^ j * one := Nat.mul_lt_mul_of_pos_right hm one_pos
      _ = 2 ^ (j + 1074) := Decimal.two_pow_mul_one rfl _
      _ ≤ 2 ^ (j + 1980) := Nat.pow_le_pow_right (by decide) (by omega)
      _ ≤ (2 ^ 54 - 1) * 2 ^ (j + 1980) := Nat.le_mul_of_pos_left _ (by decide)
  have hsame : magnitude i.toFloat ≤ magnitude n.toFloat := by
    rw [magnitude_toFloat, magnitude_toFloat]
    exact round_le_round_of_le (Nat.mul_le_mul_right _ hi)
  have hlarge : onePattern ≤ magnitude n.toFloat := by
    rw [magnitude_toFloat, ← hone]
    exact round_le_round_of_le (Nat.le_mul_of_pos_left _ (Nat.pos_of_ne_zero hn))
  have hne : magnitude n.toFloat ≠ 0 := by
    have : 0 < onePattern := by decide
    omega
  have hratio : magnitude (i.toFloat / n.toFloat) ≤ onePattern := by
    rw [magnitude_div (isFinite_iff.mpr (hbelow i)) (isFinite_iff.mpr (hbelow n)) hne, ← hone]
    refine round_le_round (units_pos hne) Nat.one_pos ?_
    rw [Nat.mul_one, Nat.mul_comm one]
    exact Nat.mul_le_mul_right _ (units_le_units hsame (hbelow n))
  exact ⟨isFinite_iff.mpr (Nat.lt_of_le_of_lt hratio (by decide)), hratio⟩

end Toolpath.Binary64
