import Toolpath.Proofs.Json.Numbers
import Toolpath.Proofs.Number.Shortest

/-! # JSON doubles of few digits

A number whose coefficient has at most 53 bits, and whose power of ten is exact,
is read in one operation, so that it is read as the nearest double. A double
whose shortest decimal is such a number comes back, and so does what has been
rounded to places unless it is very large.
-/

namespace Toolpath.Json

open Text Number Binary64

/-! ## Reading -/

theorem absorb_eq {coefficient : Nat} {ds : List Char}
    (h : fits64 (Nat.ofDigitChars 10 ds coefficient) = true) :
    absorb coefficient ds = (Nat.ofDigitChars 10 ds coefficient, []) := by
  induction ds generalizing coefficient with
  | nil => rfl
  | cons c cs ih =>
      rw [Nat.ofDigitChars_cons] at h ⊢
      have hle : 10 * coefficient + (c.toNat - '0'.toNat) ≤
          Nat.ofDigitChars 10 cs (10 * coefficient + (c.toNat - '0'.toNat)) := by
        rw [Nat.ofDigitChars_eq_ofDigitChars_zero]
        exact Nat.le_add_right_of_le (Nat.le_mul_of_pos_left _ (Decimal.ten_pow_pos _))
      have hnext : fits64 (10 * coefficient + (c.toNat - '0'.toNat)) = true :=
        decide_eq_true (Nat.lt_of_le_of_lt hle (of_decide_eq_true h))
      rw [absorb, if_pos hnext]
      exact ih h

/-- Digits that fit are all taken in. -/
theorem scaled_eq (negative : Bool) {whole fraction : List Char} (exponent : Int)
    (h : fits64 (digitsValue (whole ++ fraction)) = true) :
    scaled negative whole fraction exponent =
      Decimal.ofDigits negative whole fraction exponent := by
  have hall : digitsValue (whole ++ fraction) =
      Nat.ofDigitChars 10 fraction (digitsValue whole) := Nat.ofDigitChars_append 0
  have hwhole : fits64 (digitsValue whole) = true := by
    refine decide_eq_true (Nat.lt_of_le_of_lt ?_ (of_decide_eq_true h))
    rw [digitsValue_append]
    exact Nat.le_add_right_of_le (Nat.le_mul_of_pos_left _ (Decimal.ten_pow_pos _))
  have hfront : absorb 0 whole = (digitsValue whole, []) := absorb_eq hwhole
  rw [hall] at h
  rw [scaled, hfront]
  dsimp only
  rw [absorb_eq h, ← hall]
  simp [Decimal.ofDigits]

/-- The operands are exact, so that only their product or their quotient is rounded. -/
theorem approximate?_eq {d : Decimal} (hcoefficient : d.coefficient < 2 ^ 53)
    (hlow : -22 ≤ d.exponent) (hhigh : d.exponent ≤ 22) : approximate? d = some d.toFloat := by
  have hlt := magnitude_lt_of_exponent_le hcoefficient hhigh
  have hexact := isExact_whole hcoefficient
  have hwhole := toFloat_eq_ofUnits hcoefficient
  have hscaled : (if d.coefficient = 0 then d.coefficient.toUInt64.toFloat
      else if 0 ≤ d.exponent then d.coefficient.toUInt64.toFloat * powerOfTen d.exponent.toNat
      else if (-d.exponent).toNat ≤ 308 then
        d.coefficient.toUInt64.toFloat / powerOfTen (-d.exponent).toNat
      else
        d.coefficient.toUInt64.toFloat / powerOfTen 308 / powerOfTen ((-d.exponent).toNat - 308)) =
      ofMagnitude false d.magnitude := by
    rw [hwhole]
    split
    next hzero =>
      rw [Decimal.magnitude, if_pos hzero, hzero, ofUnits, Nat.zero_mul, round_zero Nat.one_pos]
    split
    next hpos =>
      obtain ⟨n, hn⟩ := Int.eq_ofNat_of_zero_le hpos
      have hmagnitude := magnitude_natCast d.negative d.coefficient n
      rw [← hn] at hmagnitude
      rw [hn, Int.toNat_natCast, mul_powerOfTen hexact.isFinite (by omega),
        hexact.units_magnitude, isNegative_ofUnits, Nat.mul_right_comm]
      exact congrArg _ hmagnitude.symm
    next hneg =>
      obtain ⟨n, hn⟩ := Int.eq_ofNat_of_zero_le (a := -d.exponent) (by omega)
      have hmagnitude := magnitude_neg_natCast d.negative d.coefficient n
      rw [← hn, Int.neg_neg] at hmagnitude
      rw [if_pos (by omega), hn, Int.toNat_natCast, div_powerOfTen hexact.isFinite (by omega),
        hexact.units_magnitude, isNegative_ofUnits]
      exact congrArg _ hmagnitude.symm
  have hfinite : (ofMagnitude false d.magnitude).isFinite = true :=
    (isFinite_ofMagnitude_iff false (Nat.le_of_lt hlt)).mpr hlt
  rw [approximate?, hscaled, if_pos hfinite, Decimal.toFloat]
  cases d.negative with
  | false => rfl
  | true => exact congrArg some (neg_ofMagnitude false hlt)

theorem floatData_eq {d : Decimal} (hcoefficient : d.coefficient < 2 ^ 53)
    (hlow : -22 ≤ d.exponent) (hhigh : d.exponent ≤ 22) : floatData d = .float d.toFloat := by
  rw [floatData, approximate?_eq hcoefficient hlow hhigh]
  rfl

/-! ## Written decimals -/

theorem number?_layPositional (negative : Bool) {coefficient : Nat} {exponent : Int}
    (h : coefficient ≠ 0 ∨ exponent = 0)
    (hfits : fits64 (coefficient * 10 ^ (exponent + 1).toNat) = true) :
    number? (signText negative ++ layPositional true (digits coefficient) exponent) =
      some (floatData ⟨negative, coefficient * 10 ^ (exponent + 1).toNat,
        exponent - (exponent + 1).toNat⟩) := by
  obtain ⟨whole, fraction, hwhole, hfraction, htext⟩ := exists_layPositional h
  have hunsigned := unsigned_layPositional negative coefficient exponent
  have hread := number?_pointed negative hwhole hfraction (stops_nil _) rfl
  rw [htext] at hunsigned ⊢
  have hsame := ofDigits_eq_of_unsigned hunsigned hwhole.1 hfraction
  have hvalue : digitsValue (whole ++ fraction) = coefficient * 10 ^ (exponent + 1).toNat :=
    congrArg Decimal.coefficient hsame
  rw [← hvalue] at hfits
  rwa [List.append_nil, scaled_eq negative 0 hfits, hsame] at hread

theorem number?_layScientific_of_fits (negative : Bool) {coefficient : Nat}
    (hfits : fits64 coefficient = true) (exponent : Int) :
    number? (signText negative ++ layScientific (digits coefficient)
      (exponent + (digits coefficient).length - 1)) =
        some (floatData ⟨negative, coefficient, exponent⟩) := by
  obtain ⟨first, more, hdigits, hread⟩ := number?_layScientific negative coefficient
    (exponent + (digits coefficient).length - 1)
  have hvalue : digitsValue ([first] ++ more) = coefficient := by
    rw [List.singleton_append, ← hdigits, digitsValue_digits]
  have hback : exponent + (digits coefficient).length - 1 - more.length = exponent := by
    rw [hdigits, List.length_cons]
    omega
  rw [← hvalue] at hfits
  rw [hread, scaled_eq negative _ hfits, Decimal.ofDigits, hvalue, hback]

/-- Short decimals are read as the doubles nearest to them. -/
theorem number?_layOut_of_isShort (negative : Bool) {d : Decimal}
    (hzero : d.coefficient ≠ 0 ∨ d.exponent = 0) (h : d.IsShort) :
    number? (signText negative ++ layOut json d) =
      some (.float (ofMagnitude negative d.magnitude)) := by
  obtain ⟨hcoefficient, hlow, hhigh⟩ := h
  have hsmall : d.coefficient < 2 ^ 53 :=
    Nat.lt_of_le_of_lt (Nat.le_mul_of_pos_right _ (Decimal.ten_pow_pos _)) hcoefficient
  unfold layOut
  dsimp only
  split
  next =>
    -- The zeros up to the point and the one behind it are read with the coefficient.
    have hback : d.exponent - (d.exponent + 1).toNat + (d.exponent + 1).toNat = d.exponent :=
      Int.sub_add_cancel ..
    have hread := number?_layPositional negative hzero
      (decide_eq_true (Nat.lt_trans hcoefficient (by decide)))
    rw [floatData_eq hcoefficient (by dsimp only; omega) (by dsimp only; omega), Decimal.toFloat,
      Decimal.magnitude_mul_pow, hback] at hread
    exact hread
  next =>
    have hdata : floatData ⟨negative, d.coefficient, d.exponent⟩ =
        .float (ofMagnitude negative d.magnitude) := floatData_eq hsmall hlow hhigh
    rw [← hdata]
    exact number?_layScientific_of_fits negative
      (decide_eq_true (Nat.lt_trans hsmall (by decide))) d.exponent

/-! ## Written doubles -/

/-- Whether a double is finite, and its shortest decimal is short. -/
def IsShort (x : Float) : Prop :=
  x.isFinite = true ∧
    (magnitude x = 0 ∨ (Shortest.ofMagnitude json.upward (magnitude x)).IsShort)

instance : DecidablePred IsShort :=
  fun x => inferInstanceAs (Decidable (x.isFinite = true ∧
    (magnitude x = 0 ∨ (Shortest.ofMagnitude json.upward (magnitude x)).IsShort)))

theorem number?_layMagnitude_of_isShort (negative : Bool) {bits : Nat} (hlt : bits < infinity)
    (h : bits = 0 ∨ (Shortest.ofMagnitude json.upward bits).IsShort) :
    number? (signText negative ++ layMagnitude json bits) =
      some (.float (ofMagnitude negative bits)) := by
  unfold layMagnitude
  split
  next hzero =>
    rw [hzero]
    exact number?_layOut_of_isShort negative (.inr rfl) ⟨by decide, by decide, by decide⟩
  next hsome =>
    have hback := Shortest.magnitude_ofMagnitude json.upward hlt
    have hne : (Shortest.ofMagnitude json.upward bits).coefficient ≠ 0 := by
      intro hzero
      rw [Decimal.magnitude, if_pos hzero] at hback
      exact hsome hback.symm
    rw [number?_layOut_of_isShort negative (.inl hne) (h.resolve_left hsome), hback]

/-- Short doubles are read back. -/
theorem IsShort.readsBack {x : Float} (h : IsShort x) : ReadsBack x := by
  obtain ⟨hx, hshort⟩ := h
  have htext : floatText x = signText (isNegative x) ++ layMagnitude json (magnitude x) :=
    if_pos hx
  rw [ReadsBack, reading, htext,
    number?_layMagnitude_of_isShort _ (magnitude_lt_infinity hx) hshort, ofMagnitude_magnitude]
  rfl

/-- What has been rounded to places is short unless it is very large. -/
theorem isShort_roundTo {x : Float} (hx : x.isFinite = true) (places : Nat)
    (h : units (magnitude x) * 10 ^ min places maxPlaces ≤ 10 ^ 14 * one) :
    IsShort (roundTo x places) := by
  have hplaces : min places maxPlaces ≤ 15 := Nat.min_le_right ..
  obtain ⟨m, hm, hrounded⟩ := exists_roundTo hx places (n := 10 ^ 14) (by decide) h
  rw [hrounded]
  generalize min places maxPlaces = p at hplaces
  have hlt : (Decimal.mk (isNegative x) m (-p)).magnitude < infinity :=
    magnitude_lt_of_exponent_le (Nat.lt_of_le_of_lt hm (by decide)) (by dsimp only; omega)
  generalize hbits : (Decimal.mk (isNegative x) m (-p)).magnitude = bits at hlt
  have hfloat : (Decimal.mk (isNegative x) m (-p)).toFloat = ofMagnitude (isNegative x) bits :=
    congrArg (ofMagnitude (isNegative x)) hbits
  rw [IsShort, hfloat, magnitude_ofMagnitude _ (Nat.le_of_lt hlt)]
  refine ⟨(isFinite_ofMagnitude_iff _ (Nat.le_of_lt hlt)).mpr hlt, ?_⟩
  by_cases hne : bits = 0
  · exact .inl hne
  · exact .inr (Shortest.isShort_ofMagnitude _ hlt hne hplaces hm hbits)

end Toolpath.Json
