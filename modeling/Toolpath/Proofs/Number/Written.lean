import Toolpath.Number.Style
import Toolpath.Proofs.Number.Encoding
import Toolpath.Proofs.Number.Nearest
import Toolpath.Proofs.Number.Numeral

/-! # Written doubles

In a style without exponents the text of a finite double is a numeral. Reading
it gives the double back, the sign of zero included.
-/

namespace Toolpath

open Text

/-! ## Digits -/

theorem digitsValue_append (front behind : List Char) :
    digitsValue (front ++ behind) =
      10 ^ behind.length * digitsValue front + digitsValue behind := by
  change Nat.ofDigitChars 10 (front ++ behind) 0 = _
  rw [Nat.ofDigitChars_append, Nat.ofDigitChars_eq_ofDigitChars_zero]
  rfl

theorem digitsValue_digits (n : Nat) : digitsValue (digits n) = n :=
  Nat.ofDigitChars_ten_toDigits

theorem digitsValue_replicate_zero (n : Nat) : digitsValue (List.replicate n '0') = 0 := by
  induction n with
  | zero => rfl
  | succ n ih => exact ih

/-- Zeros behind digits multiply their value. -/
theorem digitsValue_append_zeros (cs : List Char) (n : Nat) :
    digitsValue (cs ++ List.replicate n '0') = digitsValue cs * 10 ^ n := by
  rw [digitsValue_append, digitsValue_replicate_zero, List.length_replicate, Nat.add_zero,
    Nat.mul_comm]

/-- Zeros in front of digits do not count. -/
theorem digitsValue_zeros_append (n : Nat) (cs : List Char) :
    digitsValue (List.replicate n '0' ++ cs) = digitsValue cs := by
  rw [digitsValue_append, digitsValue_replicate_zero, Nat.mul_zero, Nat.zero_add]

theorem isDigits_digits (n : Nat) : IsDigits (digits n) :=
  ⟨Nat.toDigits_ne_nil, fun _ hc => Nat.isDigit_of_mem_toDigits (by decide) (by decide) hc⟩

theorem isDigit_of_mem_zeros {n : Nat} {c : Char} (h : c ∈ List.replicate n '0') :
    c.isDigit = true := by
  rw [List.eq_of_mem_replicate h]
  rfl

theorem IsDigits.append_zeros {ds : List Char} (hds : IsDigits ds) (n : Nat) :
    IsDigits (ds ++ List.replicate n '0') := by
  refine ⟨fun hnil => hds.1 (List.append_eq_nil_iff.mp hnil).1, fun c hc => ?_⟩
  rcases List.mem_append.mp hc with hc | hc
  · exact hds.2 c hc
  · exact isDigit_of_mem_zeros hc

/-! ## The characters of numerals -/

theorem isAlpha_of_isDigit {c : Char} (h : c.isDigit = true) : c.isAlpha = false := by
  obtain ⟨-, hhigh⟩ : 48 ≤ c.toNat ∧ c.toNat ≤ 57 := Char.isDigit_iff_toNat.mp h
  refine Bool.eq_false_iff.mpr fun halpha => ?_
  rcases Bool.or_eq_true_iff.mp halpha with hupper | hlower
  · have hle : 65 ≤ c.toNat := UInt32.le_iff_toNat_le.mp (of_decide_eq_true hupper).1
    omega
  · have hle : 97 ≤ c.toNat := UInt32.le_iff_toNat_le.mp
      (of_decide_eq_true (Bool.and_eq_true_iff.mp hlower).1)
    omega

theorem isBlank_of_isDigit {c : Char} (h : c.isDigit = true) : isBlank c = false := by
  obtain ⟨hlow, hhigh⟩ : 48 ≤ c.toNat ∧ c.toNat ≤ 57 := Char.isDigit_iff_toNat.mp h
  simp only [isBlank, Bool.or_eq_false_iff, Bool.and_eq_false_imp, decide_eq_true_eq,
    decide_eq_false_iff_not, beq_eq_false_iff_ne]
  omega

theorem Unsigned.mem {negative : Bool} {cs : List Char} {d : Decimal}
    (h : Unsigned negative cs d) {c : Char} (hc : c ∈ cs) : c.isDigit = true ∨ c = '.' := by
  cases h with
  | whole hds => exact .inl (hds.2 c hc)
  | pointed hds hfs =>
      rcases List.mem_append.mp hc with hc | hc
      · exact .inl (hds.2 c hc)
      · exact (List.mem_cons.mp hc).symm.imp_left (hfs c)
  | fraction hfs => exact (List.mem_cons.mp hc).symm.imp_left (hfs.2 c)

namespace Number

/-! ## Layouts -/

/-- The zero behind the point of a whole number is one more digit. -/
theorem unsigned_layPositional_point (negative : Bool) (coefficient n : Nat) :
    Unsigned negative (layPositional true (digits coefficient) n)
      ⟨negative, coefficient * 10 ^ (n + 1), -1⟩ := by
  have hdigits := (isDigits_digits coefficient).append_zeros n
  have hvalue : digitsValue (digits coefficient ++ List.replicate n '0' ++ ['0']) =
      coefficient * 10 ^ (n + 1) := by
    rw [List.append_assoc, ← List.replicate_succ', digitsValue_append_zeros, digitsValue_digits]
  have hread : Unsigned negative (_ ++ '.' :: ['0']) _ :=
    .pointed hdigits (isDigits_digits 0).2
  rw [hvalue] at hread
  rw [layPositional, if_pos (Int.natCast_nonneg n), Int.toNat_natCast]
  exact hread

/-- Digits in front of the point write their value, and zeros behind the point do not change
it. -/
theorem unsigned_layPositional_whole (point negative : Bool) (coefficient n : Nat) :
    ∃ d, Unsigned negative (layPositional point (digits coefficient) n) d ∧
      d.negative = negative ∧ d.magnitude = (Decimal.mk negative coefficient n).magnitude := by
  cases point with
  | false =>
      have hdigits := (isDigits_digits coefficient).append_zeros n
      rw [layPositional, if_pos (Int.natCast_nonneg n), Int.toNat_natCast]
      refine ⟨_, by simpa using Unsigned.whole hdigits, rfl, ?_⟩
      rw [digitsValue_append_zeros, digitsValue_digits, Decimal.magnitude_mul_pow, Int.zero_add]
  | true =>
      have hback : -1 + ((n + 1 : Nat) : Int) = n := by omega
      refine ⟨_, unsigned_layPositional_point negative coefficient n, rfl, ?_⟩
      rw [Decimal.magnitude_mul_pow, hback]

/-- A point among the digits, or zeros and a point in front of them, divide their value. -/
theorem unsigned_layPositional_fraction (point negative : Bool) (coefficient : Nat)
    {places : Nat} (h : 1 ≤ places) :
    Unsigned negative (layPositional point (digits coefficient) (-places))
      ⟨negative, coefficient, -places⟩ := by
  have hdigits := (isDigits_digits coefficient).2
  have hplaces : (- -(places : Int)).toNat = places := by omega
  rw [layPositional, if_neg (by omega), hplaces]
  generalize hds : digits coefficient = ds at hdigits
  have hvalue : digitsValue ds = coefficient := hds ▸ digitsValue_digits coefficient
  dsimp only
  split
  · next hshort =>
    -- The point falls behind the first digits.
    have hfront : IsDigits (ds.take (ds.length - places)) := by
      refine ⟨fun hnil => ?_, fun c hc => hdigits c (List.mem_of_mem_take hc)⟩
      have := congrArg List.length hnil
      rw [List.length_take, List.length_nil] at this
      omega
    have hread : Unsigned negative (_ ++ '.' :: ds.drop (ds.length - places)) _ :=
      .pointed hfront fun c hc => hdigits c (List.mem_of_mem_drop hc)
    have hlength : (ds.drop (ds.length - places)).length = places := by
      rw [List.length_drop]
      omega
    rwa [List.take_append_drop, hvalue, hlength] at hread
  · next hlong =>
    have hread : Unsigned negative
        (['0'] ++ '.' :: (List.replicate (places - ds.length) '0' ++ ds)) _ :=
      .pointed (isDigits_digits 0) fun c hc =>
        (List.mem_append.mp hc).elim isDigit_of_mem_zeros (hdigits c)
    have hzero : digitsValue (['0'] ++ (List.replicate (places - ds.length) '0' ++ ds)) =
        coefficient :=
      calc digitsValue (['0'] ++ (List.replicate (places - ds.length) '0' ++ ds))
        _ = digitsValue (List.replicate (places - ds.length) '0' ++ ds) :=
            digitsValue_zeros_append 1 _
        _ = digitsValue ds := digitsValue_zeros_append _ _
        _ = coefficient := hvalue
    have hlength : (List.replicate (places - ds.length) '0' ++ ds).length = places := by
      rw [List.length_append, List.length_replicate]
      omega
    rwa [hzero, hlength] at hread

/-- Where whole numbers end in a point and a zero, the zeros up to the point and the one behind it
belong to the digits. -/
theorem unsigned_layPositional (negative : Bool) (coefficient : Nat) (exponent : Int) :
    Unsigned negative (layPositional true (digits coefficient) exponent)
      ⟨negative, coefficient * 10 ^ (exponent + 1).toNat, exponent - (exponent + 1).toNat⟩ := by
  rcases Int.lt_or_le exponent 0 with hneg | hpos
  · obtain ⟨places, hplaces⟩ := Int.eq_ofNat_of_zero_le (a := -exponent) (by omega)
    obtain rfl : exponent = -places := by omega
    have hnone : (-(places : Int) + 1).toNat = 0 := by omega
    rw [hnone, Nat.pow_zero, Nat.mul_one, Int.natCast_zero, Int.sub_zero]
    exact unsigned_layPositional_fraction true negative coefficient (by omega)
  · obtain ⟨n, rfl⟩ := Int.eq_ofNat_of_zero_le hpos
    have hup : ((n : Int) + 1).toNat = n + 1 := by omega
    have hback : (n : Int) - (n + 1 : Nat) = -1 := by omega
    rw [hup, hback]
    exact unsigned_layPositional_point negative coefficient n

/-- Without exponents a finite magnitude is written as digits with a point in its place. -/
theorem layMagnitude_eq {style : Style} (hstyle : ∀ e, style.positional e = true) {bits : Nat}
    (h : bits < Binary64.infinity) :
    ∃ coefficient exponent,
      layMagnitude style bits = layPositional style.point (digits coefficient) exponent ∧
        ∀ negative, (Decimal.mk negative coefficient exponent).magnitude = bits := by
  unfold layMagnitude
  split
  · next hzero =>
    refine ⟨0, 0, if_pos (hstyle _), fun negative => ?_⟩
    rw [hzero]
    rfl
  · exact ⟨_, _, if_pos (hstyle _), fun _ => Shortest.magnitude_ofMagnitude style.upward h⟩

/-- Without exponents a finite magnitude is written as a numeral for it. -/
theorem unsigned_layMagnitude {style : Style} (hstyle : ∀ e, style.positional e = true)
    {bits : Nat} (h : bits < Binary64.infinity) (negative : Bool) :
    ∃ d, Unsigned negative (layMagnitude style bits) d ∧
      d.negative = negative ∧ d.magnitude = bits := by
  obtain ⟨coefficient, exponent, htext, hmagnitude⟩ := layMagnitude_eq hstyle h
  rw [htext, ← hmagnitude negative]
  rcases Int.eq_nat_or_neg exponent with ⟨n, rfl | rfl⟩
  · exact unsigned_layPositional_whole style.point negative coefficient n
  · by_cases hn : n = 0
    · subst hn
      exact unsigned_layPositional_whole style.point negative coefficient 0
    · have hfraction := unsigned_layPositional_fraction style.point negative coefficient
        (Nat.pos_of_ne_zero hn)
      exact ⟨_, hfraction, rfl, rfl⟩

/-- Without exponents a finite double is written as a numeral for it. -/
theorem numeral_finiteText {style : Style} (hstyle : ∀ e, style.positional e = true) {x : Float}
    (hx : x.isFinite = true) : ∃ d, Numeral (finiteText style x) d ∧ d.toFloat = x := by
  obtain ⟨d, hunsigned, hnegative, hmagnitude⟩ := unsigned_layMagnitude hstyle
    (Binary64.magnitude_lt_infinity hx) (Binary64.isNegative x)
  refine ⟨d, ?_, ?_⟩
  · rw [finiteText]
    generalize Binary64.isNegative x = negative at hunsigned
    cases negative with
    | false => exact .plain hunsigned
    | true => exact .minus hunsigned
  · rw [Decimal.toFloat, hnegative, hmagnitude, Binary64.ofMagnitude_magnitude]

/-! ## Plain texts -/

theorem text_of_isFinite {x : Float} (hx : x.isFinite = true) : text x = finiteText plain x := by
  have hnumber : x.isNaN = false := by
    change x.toModel.unpack.isNaN = false
    change x.toModel.unpack.isFinite = true at hx
    cases hu : x.toModel.unpack with
    | notANumber => rw [hu] at hx; cases hx
    | infinity s => rfl
    | zero s => rfl
    | finite s m e hm => rfl
  rw [text, hnumber, hx]
  rfl

theorem numeral_text {x : Float} (hx : x.isFinite = true) :
    ∃ d, Numeral (text x) d ∧ d.toFloat = x := by
  rw [text_of_isFinite hx]
  exact numeral_finiteText (fun _ => rfl) hx

/-- The text of a finite double has digits, a point and a minus sign, and nothing else. -/
theorem mem_text {x : Float} (hx : x.isFinite = true) {c : Char} (hc : c ∈ text x) :
    c.isDigit = true ∨ c = '.' ∨ c = '-' := by
  have hplain : ∀ e, plain.positional e = true := fun _ => rfl
  obtain ⟨d, hunsigned, -⟩ := unsigned_layMagnitude hplain (Binary64.magnitude_lt_infinity hx) false
  rw [text_of_isFinite hx, finiteText] at hc
  rcases List.mem_append.mp hc with hsign | hdigits
  · split at hsign
    · exact .inr (.inr (List.mem_singleton.mp hsign))
    · exact absurd hsign List.not_mem_nil
  · exact (hunsigned.mem hdigits).imp_right .inl

/-- Reading the text of a finite double gives the double back. -/
theorem read?_text {x : Float} (hx : x.isFinite = true) : read? (text x) = some x := by
  refine (read?_eq_some_iff fun c hc => ?_).mpr (numeral_text hx)
  rcases mem_text hx hc with hdigit | rfl | rfl
  · exact isAlpha_of_isDigit hdigit
  all_goals rfl

end Number

end Toolpath
