import Mathlib.Data.List.Basic
import Toolpath.Proofs.Number.Exact

/-! # The search for the shortest decimal

A grid with a decimal that reads back as a double has one next to the double,
and such a neighbour is near enough to be tried. So the search stops on the
first grid with such a decimal, and the shortest decimal of a double is no longer
than any other one that has been looked for.
-/

namespace Toolpath

namespace Binary64

/-! ## The error of rounding -/

theorem roundHalfEven_error (num : Nat) {den : Nat} (hden : 0 < den) :
    2 * num ≤ 2 * (roundHalfEven num den * den) + den ∧
      2 * (roundHalfEven num den * den) ≤ 2 * num + den := by
  have hsplit : num / den * den + num % den = num := by
    rw [Nat.mul_comm]
    exact Nat.div_add_mod num den
  have hrest : num % den < den := Nat.mod_lt _ hden
  have hup : (num / den + 1) * den = num / den * den + den := Nat.succ_mul _ _
  simp only [roundHalfEven]
  split
  next => omega
  next hle =>
    split
    next =>
      rw [hup]
      omega
    next hge =>
      -- A tie goes to either side.
      rcases Nat.mod_two_eq_zero_or_one (num / den) with hbit | hbit
      · rw [hbit, Nat.add_zero]
        omega
      · rw [hbit, hup]
        omega

/-- What a significand that was rounded stands for, though it may be one bit too long. -/
theorem units_settled {k m : Nat} (hle : m ≤ 2 ^ 53) (hfull : k = 0 ∨ 2 ^ 52 ≤ m) :
    units (k * binade + m) = m * 2 ^ k ∧ k ≤ scale (k * binade + m) := by
  have hscale : k ≤ scale (k * binade + m) := by
    rcases hfull with rfl | hfull
    · exact Nat.zero_le _
    · simp only [scale, binade]
      omega
  refine ⟨?_, hscale⟩
  rcases Nat.lt_or_eq_of_le hle with hlt | rfl
  · rcases hfull with rfl | hfull
    · rw [Nat.zero_mul, Nat.zero_add, units_of_lt hlt, Nat.pow_zero, Nat.mul_one]
    · exact units_normal hfull hlt k
  · have hcarry : k * binade + 2 ^ 53 = (k + 1) * binade + 2 ^ 52 := by
      simp only [binade]
      omega
    rw [hcarry, units_normal (Nat.le_refl _) (by decide), ← Nat.pow_add, ← Nat.pow_add]
    exact congrArg (2 ^ ·) (by omega)

/-- A quotient is rounded by at most half of the last place. -/
theorem round_error {num den bits : Nat} (hden : 0 < den) (h : round num den = bits)
    (hlt : bits < infinity) :
    2 * num ≤ 2 * (units bits * den) + 2 ^ scale bits * den ∧
      2 * (units bits * den) ≤ 2 * num + 2 ^ scale bits * den := by
  generalize hk : (num / den).log2 - 52 = k
  have hpattern : k * binade + roundHalfEven num (den * 2 ^ k) = bits := by
    rw [← h]
    rw [← h] at hlt
    simp only [round, hk] at hlt ⊢
    rcases Nat.le_total (k * binade + roundHalfEven num (den * Nat.pow 2 k)) infinity with hle | hle
    · exact (Nat.min_eq_left hle).symm
    · rw [Nat.min_eq_right hle] at hlt
      exact absurd hlt (Nat.lt_irrefl _)
  have hlog : (num / (den * 2 ^ k)).log2 = (num / den).log2 - k := by
    rw [← Nat.div_div_eq_div_mul, log2_div_two_pow]
  have hle : roundHalfEven num (den * 2 ^ k) ≤ 2 ^ 53 := roundHalfEven_le (by omega)
  have hfull : k = 0 ∨ 2 ^ 52 ≤ roundHalfEven num (den * 2 ^ k) := by
    by_cases hzero : k = 0
    · exact .inl hzero
    · exact .inr (le_roundHalfEven (by omega))
  obtain ⟨hunits, hscale⟩ := units_settled hle hfull
  rw [hpattern] at hunits hscale
  have hpow : 2 ^ k * den ≤ 2 ^ scale bits * den :=
    Nat.mul_le_mul_right _ (Nat.pow_le_pow_right (by decide) hscale)
  have hsame : units bits * den = roundHalfEven num (den * 2 ^ k) * (den * 2 ^ k) := by
    rw [hunits, Nat.mul_assoc, Nat.mul_comm (2 ^ k)]
  have herror := roundHalfEven_error num (Nat.mul_pos hden (Nat.two_pow_pos k))
  rw [← hsame, Nat.mul_comm den] at herror
  omega

/-- A double and what is rounded to it are within a factor of two of each other. -/
theorem within_of_round {num den bits : Nat} (hden : 0 < den) (h : round num den = bits)
    (hlt : bits < infinity) (hne : bits ≠ 0) :
    num ≤ 2 * (units bits * den) ∧ units bits * den ≤ 2 * num := by
  have herror := round_error hden h hlt
  have hlast : 2 ^ scale bits * den ≤ units bits * den :=
    Nat.mul_le_mul_right _ (Nat.le_mul_of_pos_left _ (significand_pos hne))
  omega

end Binary64

namespace Shortest

open Binary64

/-! ## Grids -/

variable {bits : Nat} {upward : Bool} {exponent : Int}

/-- A magnitude in multiples of a power of ten, and what decimals with that power are rounded to,
are quotients with the same denominators. -/
theorem exists_ratio (bits : Nat) (exponent : Int) :
    ∃ unit > 0, (ratio bits exponent).1 = units bits * unit ∧ 0 < (ratio bits exponent).2 ∧
      ∀ negative coefficient, (Decimal.mk negative coefficient exponent).magnitude =
        round (coefficient * (ratio bits exponent).2) unit := by
  have hone := Binary64.one_pos
  rw [ratio]
  rcases Int.lt_or_le exponent 0 with hneg | hpos
  · obtain ⟨n, hn⟩ := Int.eq_ofNat_of_zero_le (a := -exponent) (by omega)
    obtain rfl : exponent = -n := by omega
    have hplaces : (- -(n : Int)).toNat = n := by omega
    have hmagnitude := fun negative coefficient => magnitude_neg_natCast negative coefficient n
    rw [if_neg (by omega), hplaces]
    generalize one = unit at hmagnitude hone ⊢
    exact ⟨10 ^ n, Decimal.ten_pow_pos n, rfl, hone, hmagnitude⟩
  · obtain ⟨n, rfl⟩ := Int.eq_ofNat_of_zero_le hpos
    have hmagnitude := fun negative coefficient => magnitude_natCast negative coefficient n
    rw [if_pos hpos, Int.toNat_natCast]
    generalize one = unit at hmagnitude hone ⊢
    refine ⟨1, Nat.one_pos, (Nat.mul_one _).symm,
      Nat.mul_pos hone (Decimal.ten_pow_pos n), ?_⟩
    intro negative coefficient
    rw [hmagnitude, Nat.mul_assoc, Nat.mul_comm unit]
    rfl

theorem readBack?_eq_some {coefficient : Nat}
    (h : (Decimal.mk false coefficient exponent).magnitude = bits) :
    readBack? bits exponent coefficient = some ⟨false, coefficient, exponent⟩ :=
  if_pos h

theorem eq_of_readBack? {coefficient : Nat} {d : Decimal}
    (h : readBack? bits exponent coefficient = some d) : d = ⟨false, coefficient, exponent⟩ := by
  simp only [readBack?] at h
  split at h
  next => exact (Option.some.inj h).symm
  next => cases h

/-- If a decimal on the grid reads back, one of those next to the double does: rounding keeps the
order, and everything between two numbers that are rounded alike is rounded as they are. -/
theorem exists_neighbour (hlt : bits < infinity) {coefficient : Nat}
    (h : (Decimal.mk false coefficient exponent).magnitude = bits) :
    ∃ j, (j = (ratio bits exponent).1 / (ratio bits exponent).2 ∨
        j = (ratio bits exponent).1 / (ratio bits exponent).2 + 1) ∧
      (Decimal.mk false j exponent).magnitude = bits := by
  obtain ⟨unit, hunit, hnum, hden, hmagnitude⟩ := exists_ratio bits exponent
  generalize (ratio bits exponent).1 = num at hnum ⊢
  generalize (ratio bits exponent).2 = den at hden hmagnitude ⊢
  have hself : round num unit = bits := by
    rw [hnum, round_eq_round hunit Nat.one_pos (Nat.mul_one _), round_units hlt]
  simp only [hmagnitude] at h ⊢
  rcases Nat.lt_or_ge (num / den) coefficient with hmore | hless
  · refine ⟨num / den + 1, .inr rfl, Nat.le_antisymm ?_ ?_⟩
    · rw [← h]
      exact round_le_round_of_le (Nat.mul_le_mul_right _ hmore)
    · rw [← hself]
      exact round_le_round_of_le (Nat.le_of_lt (Nat.lt_mul_of_div_lt (Nat.lt_succ_self _) hden))
  · refine ⟨num / den, .inl rfl, Nat.le_antisymm ?_ ?_⟩
    · rw [← hself]
      exact round_le_round_of_le (Nat.div_mul_le_self num den)
    · rw [← h]
      exact round_le_round_of_le (Nat.mul_le_mul_right _ hless)

/-- A neighbour that reads back is off by no more than half of the last place. -/
theorem near_of_magnitude (hlt : bits < infinity) {j : Nat}
    (hj : j = (ratio bits exponent).1 / (ratio bits exponent).2 ∨
      j = (ratio bits exponent).1 / (ratio bits exponent).2 + 1)
    (h : (Decimal.mk false j exponent).magnitude = bits) :
    2 * significand bits *
        min ((ratio bits exponent).1 % (ratio bits exponent).2)
          ((ratio bits exponent).2 - (ratio bits exponent).1 % (ratio bits exponent).2) ≤
      (ratio bits exponent).1 := by
  obtain ⟨unit, hunit, hnum, hden, hmagnitude⟩ := exists_ratio bits exponent
  generalize (ratio bits exponent).1 = num at hj hnum ⊢
  generalize (ratio bits exponent).2 = den at hj hden hmagnitude ⊢
  rw [hmagnitude] at h
  have herror := round_error hunit h hlt
  rw [← hnum] at herror
  have hlast : num = significand bits * (2 ^ scale bits * unit) := by
    rw [hnum, units, Nat.mul_assoc]
    rfl
  generalize 2 ^ scale bits * unit = last at herror hlast
  have hsplit : num / den * den + num % den = num := by
    rw [Nat.mul_comm]
    exact Nat.div_add_mod num den
  have hnear : 2 * min (num % den) (den - num % den) ≤ last := by
    rcases hj with rfl | rfl
    · omega
    · have hup : (num / den + 1) * den = num / den * den + den := Nat.succ_mul _ _
      rw [hup] at herror
      omega
  calc 2 * significand bits * min (num % den) (den - num % den)
    _ = significand bits * (2 * min (num % den) (den - num % den)) := by
        rw [Nat.mul_comm 2, Nat.mul_assoc]
    _ ≤ significand bits * last := Nat.mul_le_mul_left _ hnear
    _ = num := hlast.symm

/-- The two neighbours that are tried are enough: if a decimal on the grid reads back, one is
found. -/
theorem isSome_onGrid? (upward : Bool) (hlt : bits < infinity) {coefficient : Nat}
    (h : (Decimal.mk false coefficient exponent).magnitude = bits) :
    (onGrid? upward bits exponent).isSome = true := by
  obtain ⟨j, hj, hback⟩ := exists_neighbour hlt h
  have hnear := near_of_magnitude hlt hj hback
  have hsome := readBack?_eq_some hback
  rw [onGrid?]
  generalize ratio bits exponent = quotient at hj hnear
  obtain ⟨num, den⟩ := quotient
  dsimp only at hj hnear ⊢
  rw [if_neg (Nat.not_lt.mpr hnear)]
  split <;> rw [Option.isSome_or, Bool.or_eq_true]
  · rcases hj with rfl | rfl
    · exact .inl (hsome ▸ rfl)
    · exact .inr (hsome ▸ rfl)
  · rcases hj with rfl | rfl
    · exact .inr (hsome ▸ rfl)
    · exact .inl (hsome ▸ rfl)

theorem of_onGrid? {d : Decimal} (h : onGrid? upward bits exponent = some d) :
    d.exponent = exponent ∧
      d.coefficient ≤ (ratio bits exponent).1 / (ratio bits exponent).2 + 1 := by
  simp only [onGrid?] at h
  split at h
  next => cases h
  next =>
    split at h <;> rcases Option.or_eq_some_iff.mp h with hfirst | ⟨-, hsecond⟩
    · rw [eq_of_readBack? hfirst]
      exact ⟨rfl, Nat.le_succ _⟩
    · rw [eq_of_readBack? hsecond]
      exact ⟨rfl, Nat.le_refl _⟩
    · rw [eq_of_readBack? hfirst]
      exact ⟨rfl, Nat.le_refl _⟩
    · rw [eq_of_readBack? hsecond]
      exact ⟨rfl, Nat.le_succ _⟩

/-! ## The search -/

/-- What is found stands on the first grid with a decimal that reads back. -/
theorem exists_onGrid?_of_magnitude (upward : Bool) (hlt : bits < infinity) {n : Nat} (hn : n < 17)
    {coefficient : Nat}
    (h : (Decimal.mk false coefficient (leadingExponent bits - n)).magnitude = bits) :
    ∃ m ≤ n, ∃ d, onGrid? upward bits (leadingExponent bits - m) = some d ∧
      ofMagnitude upward bits = dropZeros d := by
  have hmem : n ∈ List.range 17 := List.mem_range.mpr hn
  have hsome := isSome_onGrid? upward hlt h
  have hany : ((List.range 17).findSome? fun (n : Nat) =>
      onGrid? upward bits (leadingExponent bits - n)).isSome = true :=
    List.findSome?_isSome_iff.mpr ⟨n, hmem, hsome⟩
  obtain ⟨d, hfound⟩ := Option.isSome_iff_exists.mp hany
  obtain ⟨front, m, behind, hrange, hgrid, hnone⟩ := List.findSome?_eq_some_iff.mp hfound
  refine ⟨m, ?_, d, hgrid, ?_⟩
  · have hsorted := List.pairwise_lt_range (n := 17)
    rw [hrange, List.pairwise_append, List.pairwise_cons] at hsorted
    rw [hrange, List.mem_append, List.mem_cons] at hmem
    rcases hmem with hfront | rfl | hbehind
    · rw [hnone n hfront] at hsome
      cases hsome
    · exact Nat.le_refl n
    · exact Nat.le_of_lt (hsorted.2.1.1 n hbehind)
  · rw [ofMagnitude]
    simp only [hfound, Option.getD_some]

/-- Zeros at the end of a coefficient are moved to the exponent. -/
theorem exists_dropZeros (d : Decimal) :
    ∃ n : Nat, d.coefficient = (dropZeros d).coefficient * 10 ^ n ∧
      (dropZeros d).exponent = d.exponent + n := by
  induction d using dropZeros.induct with
  | case1 d hzero =>
      rw [dropZeros, if_pos hzero]
      exact ⟨0, (Nat.mul_one _).symm, (Int.add_zero _).symm⟩
  | case2 d hne hzero ih =>
      obtain ⟨n, hcoefficient, hexponent⟩ := ih
      dsimp only at hcoefficient hexponent
      rw [dropZeros, if_neg hne, if_pos hzero]
      refine ⟨n + 1, ?_, ?_⟩
      · rw [Nat.pow_succ, ← Nat.mul_assoc, ← hcoefficient]
        omega
      · rw [hexponent]
        omega
  | case3 d hne hend =>
      rw [dropZeros, if_neg hne, if_neg hend]
      exact ⟨0, (Nat.mul_one _).symm, (Int.add_zero _).symm⟩

/-! ## The first digit -/

/-- Whether a magnitude is at least a power of ten. -/
def Reaches (bits : Nat) (e : Int) : Prop :=
  if 0 ≤ e then 10 ^ e.toNat * one ≤ units bits else one ≤ units bits * 10 ^ (-e).toNat

/-- A power of ten may be compared on the scale of any grid that has it. -/
theorem reaches_iff {e : Int} {p : Nat} (h : 0 ≤ e + p) :
    Reaches bits e ↔ 10 ^ (e + p).toNat * one ≤ units bits * 10 ^ p := by
  have hpos (n : Nat) : 0 < 10 ^ n := Decimal.ten_pow_pos n
  rw [Reaches]
  split
  next hwhole =>
    obtain ⟨n, rfl⟩ := Int.eq_ofNat_of_zero_le hwhole
    have hsum : ((n : Int) + p).toNat = n + p := by omega
    rw [hsum, Int.toNat_natCast, Nat.pow_add, Nat.mul_right_comm, Nat.mul_le_mul_right_iff (hpos p)]
  next hfraction =>
    obtain ⟨n, hn⟩ := Int.eq_ofNat_of_zero_le (a := -e) (by omega)
    obtain ⟨q, hq⟩ := Int.eq_ofNat_of_zero_le h
    have hsplit : p = n + q := by omega
    rw [hn, hq, Int.toNat_natCast, Int.toNat_natCast, hsplit, Nat.pow_add, ← Nat.mul_assoc,
      Nat.mul_comm (10 ^ q), Nat.mul_le_mul_right_iff (hpos q)]

/-- The exponent of the first digit is estimated from the length, and raised if the next power of
ten is reached. -/
theorem leadingExponent_spec (bits : Nat) :
    ∃ estimate : Int,
      estimate * 100000 ≤ (((units bits).log2 : Int) - 1074) * 30103 ∧
      (((units bits).log2 : Int) - 1074) * 30103 < (estimate + 1) * 100000 ∧
      ((leadingExponent bits = estimate + 1 ∧ Reaches bits (estimate + 1)) ∨
        (leadingExponent bits = estimate ∧ ¬Reaches bits (estimate + 1))) := by
  generalize hbinary : ((units bits).log2 : Int) - 1074 = binary
  have hfloor := Int.mul_fdiv_add_fmod (binary * 30103) 100000
  have hlow : 0 ≤ (binary * 30103).fmod 100000 := Int.fmod_nonneg_of_pos _ (by decide)
  have hhigh : (binary * 30103).fmod 100000 < 100000 := Int.fmod_lt_of_pos _ (by decide)
  refine ⟨(binary * 30103).fdiv 100000, by omega, by omega, ?_⟩
  rw [leadingExponent, hbinary]
  generalize (binary * 30103).fdiv 100000 = estimate
  have hreached : ((if 0 ≤ estimate + 1 then
      decide (Nat.pow 10 (estimate + 1).toNat * one ≤ units bits)
      else decide (one ≤ units bits * Nat.pow 10 (-(estimate + 1)).toNat)) = true) ↔
        Reaches bits (estimate + 1) := by
    rw [Reaches]
    split
    · exact decide_eq_true_iff
    · exact decide_eq_true_iff
  by_cases h : Reaches bits (estimate + 1)
  · exact .inl ⟨if_pos (hreached.mpr h), h⟩
  · exact .inr ⟨if_neg fun hcheck => h (hreached.mp hcheck), h⟩

/-- Three decimal places are less than ten binary ones. -/
theorem ten_pow_le_two_pow (n : Nat) : 10 ^ n ≤ 2 ^ (10 * ((n + 2) / 3)) :=
  calc 10 ^ n
    _ ≤ 10 ^ (3 * ((n + 2) / 3)) := Nat.pow_le_pow_right (by decide) (by omega)
    _ = (10 ^ 3) ^ ((n + 2) / 3) := Nat.pow_mul ..
    _ ≤ (2 ^ 10) ^ ((n + 2) / 3) := Nat.pow_le_pow_left (by decide) _
    _ = 2 ^ (10 * ((n + 2) / 3)) := (Nat.pow_mul ..).symm

/-- The first digit of a magnitude with few digits is in reach of the search. -/
theorem leadingExponent_add_le {p : Nat} (hp : p ≤ 15) (h : units bits * 10 ^ p < 10 ^ 15 * one) :
    leadingExponent bits + p ≤ 16 := by
  by_contra hfar
  obtain ⟨estimate, hlow, -, ⟨hfirst, hreaches⟩ | ⟨hfirst, -⟩⟩ := leadingExponent_spec bits
  · have hpow := (reaches_iff (p := p) (by omega)).mp hreaches
    have hlt : 10 ^ (estimate + 1 + p).toNat < 10 ^ 15 :=
      Nat.lt_of_mul_lt_mul_right (Nat.lt_of_le_of_lt hpow h)
    rw [Nat.pow_lt_pow_iff_right (by decide)] at hlt
    omega
  · -- The estimate alone would make the magnitude too large.
    obtain ⟨k, hk⟩ : ∃ k, k = 1074 := ⟨_, rfl⟩
    obtain ⟨length, hlength⟩ : ∃ length, (units bits).log2 = length + k :=
      ⟨(units bits).log2 - k, by omega⟩
    have hne : units bits ≠ 0 := by
      intro hzero
      rw [hzero, Nat.log2_zero] at hlength
      omega
    have hunits : 2 ^ length * one ≤ units bits := by
      rw [Decimal.two_pow_mul_one hk, ← hlength]
      exact Nat.log2_self_le hne
    have hpow : 10 ^ 15 ≤ 2 ^ length * 10 ^ p :=
      calc 10 ^ 15
        _ = 10 ^ (15 - p) * 10 ^ p := by rw [← Nat.pow_add, Nat.sub_add_cancel hp]
        _ ≤ 2 ^ length * 10 ^ p := Nat.mul_le_mul_right _ (Nat.le_trans (ten_pow_le_two_pow _)
            (Nat.pow_le_pow_right (by decide) (by omega)))
    refine absurd h (Nat.not_lt.mpr ?_)
    calc 10 ^ 15 * one
      _ ≤ 2 ^ length * 10 ^ p * one := Nat.mul_le_mul_right _ hpow
      _ = 2 ^ length * one * 10 ^ p := Nat.mul_right_comm ..
      _ ≤ units bits * 10 ^ p := Nat.mul_le_mul_right _ hunits

/-- If the first digit is beyond the places of a number, it is the only one, or almost. -/
theorem units_mul_ten_pow_lt {p f : Nat} (hp : p ≤ 15) (hf : p < f)
    (hfirst : leadingExponent bits = -f) (h : one ≤ 2 * (units bits * 10 ^ p)) :
    units bits * 10 ^ f < 2 ^ 8 * one ∧ f ≤ 17 := by
  obtain ⟨k, hk⟩ : ∃ k, k = 1074 := ⟨_, rfl⟩
  obtain ⟨estimate, hlow, hhigh, hcases⟩ := leadingExponent_spec bits
  have hlength : units bits < 2 ^ ((units bits).log2 + 1) := Nat.lt_log2_self
  generalize (units bits).log2 = length at hlow hhigh hlength
  have hlong : k < length + 2 + 10 * ((p + 2) / 3) := by
    rw [← Nat.pow_lt_pow_iff_right (a := 2) (by decide), two_pow_eq_one hk]
    calc one
      _ ≤ 2 * (units bits * 10 ^ p) := h
      _ = 2 * units bits * 10 ^ p := (Nat.mul_assoc ..).symm
      _ < 2 * 2 ^ (length + 1) * 10 ^ p :=
          Nat.mul_lt_mul_of_pos_right (Nat.mul_lt_mul_of_pos_left hlength (by decide))
            (Decimal.ten_pow_pos p)
      _ ≤ 2 ^ (length + 2) * 2 ^ (10 * ((p + 2) / 3)) := by
          rw [← Nat.pow_succ']
          exact Nat.mul_le_mul_left _ (ten_pow_le_two_pow p)
      _ = 2 ^ (length + 2 + 10 * ((p + 2) / 3)) := (Nat.pow_add ..).symm
  rcases hcases with ⟨hraised, -⟩ | ⟨hkept, hshort⟩
  · refine ⟨?_, by omega⟩
    calc units bits * 10 ^ f
      _ < 2 ^ (length + 1) * 10 ^ f := Nat.mul_lt_mul_of_pos_right hlength (Decimal.ten_pow_pos f)
      _ ≤ 2 ^ (length + 1) * 2 ^ (10 * ((f + 2) / 3)) :=
          Nat.mul_le_mul_left _ (ten_pow_le_two_pow f)
      _ = 2 ^ (length + 1 + 10 * ((f + 2) / 3)) := (Nat.pow_add ..).symm
      _ ≤ 2 ^ (8 + k) := Nat.pow_le_pow_right (by decide) (by omega)
      _ = 2 ^ 8 * one := (Decimal.two_pow_mul_one hk 8).symm
  · refine ⟨?_, by omega⟩
    obtain ⟨q, rfl⟩ : ∃ q, f = q + 1 := ⟨f - 1, by omega⟩
    have hnone : (estimate + 1 + q).toNat = 0 := by omega
    rw [reaches_iff (p := q) (by omega), hnone] at hshort
    generalize one = unit at hshort ⊢
    rw [Nat.pow_zero, Nat.one_mul] at hshort
    rw [Nat.pow_succ, ← Nat.mul_assoc]
    omega

/-! ## Short decimals -/

theorem quotient_le {p : Nat} (h : -(p : Int) ≤ exponent) :
    (ratio bits exponent).1 / (ratio bits exponent).2 ≤ units bits * 10 ^ p / one := by
  rw [ratio]
  generalize one = unit
  split
  next hwhole =>
    rw [← Nat.div_div_eq_div_mul]
    exact Nat.le_trans (Nat.div_le_self _ _)
      (Nat.div_le_div_right (Nat.le_mul_of_pos_right _ (Decimal.ten_pow_pos p)))
  next hfraction =>
    have hle : (-exponent).toNat ≤ p := by omega
    exact Nat.div_le_div_right (Nat.mul_le_mul_left _ (Nat.pow_le_pow_right (by decide) hle))

end Shortest

/-- Whether a decimal has a small exponent, and a coefficient that has at most 53 bits even with
the zeros up to the point and one more behind it. -/
def Decimal.IsShort (d : Decimal) : Prop :=
  d.coefficient * 10 ^ (d.exponent + 1).toNat < 2 ^ 53 ∧ -22 ≤ d.exponent ∧ d.exponent ≤ 22

instance : DecidablePred Decimal.IsShort :=
  fun d => inferInstanceAs (Decidable (d.coefficient * 10 ^ (d.exponent + 1).toNat < 2 ^ 53 ∧
    -22 ≤ d.exponent ∧ d.exponent ≤ 22))

namespace Shortest

open Binary64

/-- What is found for a number with few digits has few digits, on a grid that is not much finer. -/
theorem exists_onGrid?_of_digits (upward : Bool) (hlt : bits < infinity) (hne : bits ≠ 0)
    {n p : Nat} (hp : p ≤ 15) (hn : n ≤ 10 ^ 14)
    (h : (Decimal.mk false n (-p)).magnitude = bits) :
    ∃ exponent d, onGrid? upward bits exponent = some d ∧ ofMagnitude upward bits = dropZeros d ∧
      -17 ≤ exponent ∧ (ratio bits exponent).1 / (ratio bits exponent).2 ≤ 2 * 10 ^ 14 := by
  have hround : round (n * one) (10 ^ p) = bits := by rwa [magnitude_neg_natCast] at h
  obtain ⟨hlower, hupper⟩ := within_of_round (Decimal.ten_pow_pos p) hround hlt hne
  have hsmall : units bits * 10 ^ p ≤ 2 * 10 ^ 14 * one := by
    rw [Nat.mul_assoc]
    exact Nat.le_trans hupper (Nat.mul_le_mul_left _ (Nat.mul_le_mul_right _ hn))
  by_cases hlow : leadingExponent bits < -p
  · obtain ⟨f, hf⟩ := Int.eq_ofNat_of_zero_le (a := -leadingExponent bits) (by omega)
    have hfirst : leadingExponent bits = -f := by omega
    have hsome : one ≤ 2 * (units bits * 10 ^ p) := by
      have hpos : n ≠ 0 := by
        rintro rfl
        rw [Nat.zero_mul, round_zero (Decimal.ten_pow_pos p)] at hround
        exact hne hround.symm
      exact Nat.le_trans (Nat.le_mul_of_pos_left _ (Nat.pos_of_ne_zero hpos)) hlower
    obtain ⟨hvalue, hplaces⟩ := units_mul_ten_pow_lt hp (by omega) hfirst hsome
    have hmoved :
        (Decimal.mk false (n * 10 ^ (f - p)) (leadingExponent bits - (0 : Nat))).magnitude = bits := by
      have hexp : leadingExponent bits - (0 : Nat) + (f - p : Nat) = -p := by omega
      rw [Decimal.magnitude_mul_pow, hexp]
      exact h
    obtain ⟨m, hm, d, hgrid, hfound⟩ := exists_onGrid?_of_magnitude upward hlt (by decide) hmoved
    refine ⟨_, d, hgrid, hfound, by omega, ?_⟩
    have hquotient : (ratio bits (leadingExponent bits - m)).1 /
        (ratio bits (leadingExponent bits - m)).2 ≤ units bits * 10 ^ f / one :=
      quotient_le (by omega)
    have hfew : units bits * 10 ^ f / one < 2 ^ 8 :=
      (Nat.div_lt_iff_lt_mul Binary64.one_pos).mpr hvalue
    omega
  · have hreach := leadingExponent_add_le hp (Nat.lt_of_le_of_lt hsmall
      (Nat.mul_lt_mul_of_pos_right (by decide) Binary64.one_pos))
    obtain ⟨j, hj⟩ := Int.eq_ofNat_of_zero_le (a := leadingExponent bits + p) (by omega)
    have hexp : leadingExponent bits - j = -p := by omega
    obtain ⟨m, hm, d, hgrid, hfound⟩ :=
      exists_onGrid?_of_magnitude upward hlt (by omega) (hexp ▸ h)
    refine ⟨_, d, hgrid, hfound, by omega, Nat.le_trans (quotient_le (p := p) (by omega)) ?_⟩
    rw [Nat.mul_comm _ one] at hsmall
    exact Nat.div_le_of_le_mul hsmall

/-- A whole number with the double of a fraction is not much larger than the digits of the
fraction. -/
theorem coefficient_mul_ten_pow_le (hlt : bits < infinity) (hne : bits ≠ 0) {negative : Bool}
    {coefficient k n p : Nat} (hwhole : (Decimal.mk negative coefficient k).magnitude = bits)
    (h : (Decimal.mk false n (-p)).magnitude = bits) : coefficient * 10 ^ k ≤ 4 * n := by
  rw [magnitude_natCast] at hwhole
  rw [magnitude_neg_natCast] at h
  obtain ⟨hlower, -⟩ := within_of_round Nat.one_pos hwhole hlt hne
  obtain ⟨-, hupper⟩ := within_of_round (Decimal.ten_pow_pos p) h hlt hne
  refine Nat.le_of_mul_le_mul_right ?_ Binary64.one_pos
  calc coefficient * 10 ^ k * one
    _ ≤ 2 * (units bits * 1) := hlower
    _ ≤ 2 * (units bits * 10 ^ p) :=
        Nat.mul_le_mul_left _ (Nat.mul_le_mul_left _ (Decimal.ten_pow_pos p))
    _ ≤ 2 * (2 * (n * one)) := Nat.mul_le_mul_left _ hupper
    _ = 4 * n * one := by rw [← Nat.mul_assoc, ← Nat.mul_assoc]

/-- The shortest decimal of a double is short if another decimal that reads back as it has at most
fourteen digits and fifteen places. -/
theorem isShort_ofMagnitude (upward : Bool) (hlt : bits < infinity) (hne : bits ≠ 0) {n p : Nat}
    (hp : p ≤ 15) (hn : n ≤ 10 ^ 14) (h : (Decimal.mk false n (-p)).magnitude = bits) :
    (ofMagnitude upward bits).IsShort := by
  obtain ⟨exponent, found, hgrid, hdrop, hlow, hquotient⟩ :=
    exists_onGrid?_of_digits upward hlt hne hp hn h
  obtain ⟨hexponent, hcoefficient⟩ := of_onGrid? hgrid
  obtain ⟨zeros, hzeros, hmoved⟩ := exists_dropZeros found
  have hback := magnitude_ofMagnitude upward hlt
  rw [← hdrop] at hzeros hmoved
  generalize ofMagnitude upward bits = d at hzeros hmoved hback
  obtain ⟨negative, coefficient, e⟩ := d
  dsimp only at hzeros hmoved
  have hle : coefficient ≤ found.coefficient :=
    hzeros ▸ Nat.le_mul_of_pos_right _ (Decimal.ten_pow_pos zeros)
  have hsome : coefficient ≠ 0 := by
    rintro rfl
    exact hne hback.symm
  rcases Int.lt_or_le e 0 with hneg | hpos
  · have hnone : (e + 1).toNat = 0 := by omega
    refine ⟨?_, by simp only; omega, by simp only; omega⟩
    simp only [hnone, Nat.pow_zero, Nat.mul_one]
    omega
  · -- The zeros up to the point belong to the number itself, so that there are few of them.
    obtain ⟨k, rfl⟩ := Int.eq_ofNat_of_zero_le hpos
    have hfew := coefficient_mul_ten_pow_le hlt hne hback h
    have hplaces : k < 15 := by
      rw [← Nat.pow_lt_pow_iff_right (a := 10) (by decide)]
      calc 10 ^ k
        _ ≤ coefficient * 10 ^ k := Nat.le_mul_of_pos_left _ (Nat.pos_of_ne_zero hsome)
        _ ≤ 4 * n := hfew
        _ < 10 ^ 15 := by omega
    have hup : ((k : Int) + 1).toNat = k + 1 := by omega
    refine ⟨?_, by simp only; omega, by simp only; omega⟩
    simp only [hup, Nat.pow_succ, ← Nat.mul_assoc]
    omega

end Shortest

end Toolpath
