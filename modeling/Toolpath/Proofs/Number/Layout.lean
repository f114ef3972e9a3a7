import Toolpath.Proofs.Number.Written

/-! # Whole parts and fractions

What is written for a double without an exponent has a whole part in front of
its point, where zero leads only itself, and digits behind it.
-/

namespace Toolpath.Number

open Text

/-- A minus sign or nothing. -/
def signText (negative : Bool) : List Char :=
  if negative then ['-'] else []

/-- Digits that can be the whole part of a number: zero leads only itself. -/
def IsWhole (ds : List Char) : Prop :=
  IsDigits ds ∧ ¬(1 < ds.length ∧ ds.head? = some '0')

theorem head?_digits_ne_zero {n : Nat} (h : n ≠ 0) : (digits n).head? ≠ some '0' := by
  unfold digits
  induction n using Nat.strongRecOn with
  | ind n ih =>
      rw [Nat.toDigits_eq_if (by decide)]
      split
      · have hall : ∀ n < 10, n ≠ 0 → n.digitChar ≠ '0' := by decide
        intro hhead
        exact hall n (by assumption) h (Option.some.inj hhead)
      · have hrest := ih (n / 10) (by omega) (by omega)
        cases hds : Nat.toDigits 10 (n / 10) with
        | nil => exact absurd hds Nat.toDigits_ne_nil
        | cons first ds =>
            rw [hds] at hrest
            exact hrest

theorem isWhole_digits (n : Nat) : IsWhole (digits n) := by
  refine ⟨isDigits_digits n, ?_⟩
  rintro ⟨hlong, hzero⟩
  by_cases h : n = 0
  · subst h
    exact absurd hlong (by decide)
  · exact head?_digits_ne_zero h hzero

theorem isWhole_of_head {ds : List Char} (hdigits : IsDigits ds) (hhead : ds.head? ≠ some '0') :
    IsWhole ds :=
  ⟨hdigits, fun hzero => hhead hzero.2⟩

theorem isWhole_singleton {c : Char} (hc : c.isDigit = true) : IsWhole [c] := by
  refine ⟨⟨List.cons_ne_nil _ _, ?_⟩, ?_⟩
  · intro d hd
    obtain rfl := List.mem_singleton.mp hd
    exact hc
  · rintro ⟨hlong, -⟩
    exact Nat.lt_irrefl _ hlong

/-- Zeros up to the point, and a zero behind it. -/
theorem exists_layPositional_whole {coefficient n : Nat} (h : coefficient ≠ 0 ∨ n = 0) :
    ∃ whole fraction, IsWhole whole ∧ IsDigits fraction ∧
      layPositional true (digits coefficient) n = whole ++ '.' :: fraction := by
  have hdigits := isDigits_digits coefficient
  refine ⟨digits coefficient ++ List.replicate n '0', ['0'], ?_, isDigits_digits 0, ?_⟩
  · by_cases hzero : coefficient = 0
    · rw [h.resolve_left (not_not.mpr hzero), List.replicate_zero, List.append_nil]
      exact isWhole_digits coefficient
    · apply isWhole_of_head (hdigits.append_zeros n)
      have hhead := head?_digits_ne_zero hzero
      obtain ⟨first, ds, hds⟩ := List.exists_cons_of_ne_nil hdigits.1
      rw [hds] at hhead ⊢
      exact hhead
  · rw [layPositional, if_pos (Int.natCast_nonneg n), Int.toNat_natCast]
    rfl

/-- A point among the digits, or zeros and a point in front of them. -/
theorem exists_layPositional_fraction (point : Bool) (coefficient : Nat) {places : Nat}
    (h : 0 < places) :
    ∃ whole fraction, IsWhole whole ∧ IsDigits fraction ∧
      layPositional point (digits coefficient) (-places) = whole ++ '.' :: fraction := by
  have hdigits := isDigits_digits coefficient
  have hplaces : (- -(places : Int)).toNat = places := by omega
  rw [layPositional, if_neg (by omega), hplaces]
  dsimp only
  split
  next hshort =>
    have hnonzero : coefficient ≠ 0 := by
      rintro rfl
      exact Nat.lt_irrefl _ (Nat.lt_of_lt_of_le hshort h)
    refine ⟨_, _, isWhole_of_head ⟨?_, ?_⟩ ?_, ⟨?_, ?_⟩, rfl⟩
    · rw [Ne, List.take_eq_nil_iff]
      rintro (hnone | hnil)
      · omega
      · exact hdigits.1 hnil
    · exact fun c hc => hdigits.2 c (List.mem_of_mem_take hc)
    · rw [List.head?_take, if_neg (by omega)]
      exact head?_digits_ne_zero hnonzero
    · rw [Ne, List.drop_eq_nil_iff]
      omega
    · exact fun c hc => hdigits.2 c (List.mem_of_mem_drop hc)
  next hlong =>
    refine ⟨['0'], _, isWhole_singleton rfl, ⟨?_, ?_⟩, rfl⟩
    · exact fun hnil => hdigits.1 (List.append_eq_nil_iff.mp hnil).2
    · intro c hc
      rcases List.mem_append.mp hc with hc | hc
      · exact isDigit_of_mem_zeros hc
      · exact hdigits.2 c hc

/-- Where whole numbers end in a point and a zero, there are digits on both sides of a point. -/
theorem exists_layPositional {coefficient : Nat} {exponent : Int}
    (h : coefficient ≠ 0 ∨ exponent = 0) :
    ∃ whole fraction, IsWhole whole ∧ IsDigits fraction ∧
      layPositional true (digits coefficient) exponent = whole ++ '.' :: fraction := by
  rcases Int.eq_nat_or_neg exponent with ⟨n, rfl | rfl⟩
  · exact exists_layPositional_whole (h.imp_right Int.natCast_eq_zero.mp)
  · rcases Nat.eq_zero_or_pos n with rfl | hpos
    · exact exists_layPositional_whole (.inr rfl)
    · exact exists_layPositional_fraction true coefficient hpos

/-- Digits on both sides of a point are a numeral for one decimal. -/
theorem ofDigits_eq_of_unsigned {negative : Bool} {whole fraction : List Char} {d : Decimal}
    (h : Unsigned negative (whole ++ '.' :: fraction) d) (hwhole : IsDigits whole)
    (hfraction : IsDigits fraction) : Decimal.ofDigits negative whole fraction 0 = d := by
  have hpointed : Unsigned negative (whole ++ '.' :: fraction) _ := .pointed hwhole hfraction.2
  have hsame := hpointed.unsigned?.symm.trans h.unsigned?
  rw [Decimal.ofDigits, Int.zero_sub]
  exact Option.some.inj hsame

variable {style : Style}

theorem exists_layMagnitude (hstyle : ∀ e, style.positional e = true) (hpoint : style.point = true)
    {bits : Nat} (h : bits < Binary64.infinity) (negative : Bool) :
    ∃ whole fraction, IsWhole whole ∧ IsDigits fraction ∧
      layMagnitude style bits = whole ++ '.' :: fraction ∧
      (Decimal.ofDigits negative whole fraction 0).magnitude = bits := by
  have hshape : ∃ whole fraction, IsWhole whole ∧ IsDigits fraction ∧
      layMagnitude style bits = whole ++ '.' :: fraction := by
    unfold layMagnitude
    split
    next =>
      rw [layOut]
      simp only [hstyle, hpoint, if_true]
      exact exists_layPositional (.inr rfl)
    next hsome =>
      rw [layOut]
      simp only [hstyle, hpoint, if_true]
      refine exists_layPositional (.inl fun hzero => hsome ?_)
      have hback := Shortest.magnitude_ofMagnitude style.upward h
      rw [Decimal.magnitude, if_pos hzero] at hback
      exact hback.symm
  obtain ⟨whole, fraction, hwhole, hfraction, htext⟩ := hshape
  refine ⟨whole, fraction, hwhole, hfraction, htext, ?_⟩
  obtain ⟨d, hunsigned, -, hmagnitude⟩ := unsigned_layMagnitude hstyle h negative
  rw [htext] at hunsigned
  rw [ofDigits_eq_of_unsigned hunsigned hwhole.1 hfraction, hmagnitude]

/-- Without exponents a finite double is written with digits on both sides of a point. -/
theorem exists_finiteText (hstyle : ∀ e, style.positional e = true) (hpoint : style.point = true)
    {x : Float} (hx : x.isFinite = true) :
    ∃ whole fraction, IsWhole whole ∧ IsDigits fraction ∧
      finiteText style x = signText (Binary64.isNegative x) ++ (whole ++ '.' :: fraction) ∧
      (Decimal.ofDigits (Binary64.isNegative x) whole fraction 0).magnitude < Binary64.infinity ∧
      (Decimal.ofDigits (Binary64.isNegative x) whole fraction 0).toFloat = x := by
  have hlt := Binary64.magnitude_lt_infinity hx
  obtain ⟨whole, fraction, hwhole, hfraction, htext, hmagnitude⟩ :=
    exists_layMagnitude hstyle hpoint hlt (Binary64.isNegative x)
  refine ⟨whole, fraction, hwhole, hfraction, ?_, ?_, ?_⟩
  · rw [finiteText, htext]
    rfl
  · rw [hmagnitude]
    exact hlt
  · rw [Decimal.toFloat, hmagnitude]
    exact Binary64.ofMagnitude_magnitude x

end Toolpath.Number
