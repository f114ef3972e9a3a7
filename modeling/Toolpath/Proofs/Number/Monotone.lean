import Toolpath.Proofs.Number.Finite
import Toolpath.Proofs.Number.Nearest

/-! # Rounding and order

Rounding a quotient to a double keeps the order of quotients, and what is not
beyond the largest finite double by as much as half of its last place is
rounded to a finite one.
-/

namespace Toolpath.Binary64

/-! ## Lengths of quotients -/

theorem log2_div_two_pow (m n : Nat) : (m / 2 ^ n).log2 = m.log2 - n := by
  by_cases hsmall : m < 2 ^ n
  · rw [Nat.div_eq_of_lt hsmall, Nat.log2_zero]
    by_cases hzero : m = 0
    · rw [hzero, Nat.log2_zero, Nat.zero_sub]
    · have := (Nat.log2_lt hzero).mpr hsmall
      omega
  · have hle : 2 ^ n ≤ m := Nat.le_of_not_lt hsmall
    have hpos : 0 < 2 ^ n := Nat.two_pow_pos n
    have hm : m ≠ 0 := by omega
    have hlog : n ≤ m.log2 := (Nat.le_log2 hm).mpr hle
    have hne : m / 2 ^ n ≠ 0 := Nat.ne_of_gt (Nat.div_pos hle hpos)
    rw [Nat.log2_eq_iff hne]
    constructor
    · rw [Nat.le_div_iff_mul_le hpos, ← Nat.pow_add, Nat.sub_add_cancel hlog]
      exact Nat.log2_self_le hm
    · rw [Nat.div_lt_iff_lt_mul hpos, ← Nat.pow_add]
      have hexp : m.log2 - n + 1 + n = m.log2 + 1 := by omega
      rw [hexp]
      exact Nat.lt_log2_self

/-- Powers of two in front of a quotient that is not zero lengthen it. -/
theorem log2_mul_two_pow_div {num den : Nat} (hden : 0 < den) (h : num / den ≠ 0) (n : Nat) :
    (num * 2 ^ n / den).log2 = (num / den).log2 + n := by
  have hlow : 2 ^ (num / den).log2 * den ≤ num :=
    (Nat.le_div_iff_mul_le hden).mp (Nat.log2_self_le h)
  have hhigh : num < 2 ^ ((num / den).log2 + 1) * den :=
    (Nat.div_lt_iff_lt_mul hden).mp Nat.lt_log2_self
  generalize (num / den).log2 = l at hlow hhigh
  have hlow' : 2 ^ (l + n) ≤ num * 2 ^ n / den := by
    rw [Nat.le_div_iff_mul_le hden, Nat.pow_add, Nat.mul_right_comm]
    exact Nat.mul_le_mul_right _ hlow
  have hhigh' : num * 2 ^ n / den < 2 ^ (l + n + 1) := by
    rw [Nat.div_lt_iff_lt_mul hden, Nat.add_right_comm, Nat.pow_add, Nat.mul_right_comm]
    exact Nat.mul_lt_mul_of_pos_right hhigh (Nat.two_pow_pos n)
  have hne : num * 2 ^ n / den ≠ 0 :=
    Nat.ne_of_gt (Nat.lt_of_lt_of_le (Nat.two_pow_pos _) hlow')
  exact (Nat.log2_eq_iff hne).mpr ⟨hlow', hhigh'⟩

/-- Powers of two on one side of a quotient change its length by as much. -/
theorem log2_mul_div_mul {num den up down : Nat} (hden : 0 < den)
    (h : up = 0 ∨ (down = 0 ∧ num / den ≠ 0)) :
    (num * 2 ^ up / (den * 2 ^ down)).log2 = (num / den).log2 + up - down := by
  rcases h with rfl | ⟨rfl, hne⟩
  · rw [Nat.pow_zero, Nat.mul_one, Nat.add_zero, ← Nat.div_div_eq_div_mul, log2_div_two_pow]
  · rw [Nat.pow_zero, Nat.mul_one, Nat.sub_zero, log2_mul_two_pow_div hden hne]

/-! ## Whole numbers next to a quotient -/

/-- The nearest whole number is one of the two next to a quotient. -/
theorem roundHalfEven_bounds (num den : Nat) :
    num / den ≤ roundHalfEven num den ∧ roundHalfEven num den ≤ num / den + 1 := by
  simp only [roundHalfEven]
  split
  · omega
  · split
    · omega
    · omega

theorem roundHalfEven_le {num den : Nat} (h : (num / den).log2 ≤ 52) :
    roundHalfEven num den ≤ 2 ^ 53 := by
  refine Nat.le_trans (roundHalfEven_bounds num den).2 ?_
  by_cases hzero : num / den = 0
  · rw [hzero]
    decide
  · exact (Nat.log2_lt hzero).mp (Nat.lt_succ_of_le h)

theorem le_roundHalfEven {num den : Nat} (h : 52 ≤ (num / den).log2) :
    2 ^ 52 ≤ roundHalfEven num den := by
  have hne : num / den ≠ 0 := by
    intro hzero
    rw [hzero, Nat.log2_zero] at h
    omega
  exact Nat.le_trans ((Nat.le_log2 hne).mp h) (roundHalfEven_bounds num den).1

theorem roundHalfEven_le_roundHalfEven {num num' : Nat} (den : Nat) (h : num ≤ num') :
    roundHalfEven num den ≤ roundHalfEven num' den := by
  have hquot : num / den ≤ num' / den := Nat.div_le_div_right h
  rcases Nat.lt_or_eq_of_le hquot with hlt | heq
  · exact Nat.le_trans (roundHalfEven_bounds num den).2
      (Nat.le_trans hlt (roundHalfEven_bounds num' den).1)
  · have hrest : num % den ≤ num' % den := by
      have hsplit := Nat.div_add_mod num den
      have hsplit' := Nat.div_add_mod num' den
      rw [heq] at hsplit
      omega
    simp only [roundHalfEven, heq]
    repeat' split
    all_goals omega

/-- What is less than one half below a whole number is rounded to a smaller one. -/
theorem roundHalfEven_lt {num den n : Nat} (h : 2 * num + den < 2 * (n * den)) :
    roundHalfEven num den < n := by
  have hden : 0 < den := Nat.pos_of_ne_zero fun hzero => by simp [hzero] at h
  have hquot : num / den < n := (Nat.div_lt_iff_lt_mul hden).mpr (by omega)
  have hsplit := Nat.div_add_mod num den
  rcases Nat.lt_or_eq_of_le (Nat.succ_le_of_lt hquot) with hlt | rfl
  · exact Nat.lt_of_le_of_lt (roundHalfEven_bounds num den).2 hlt
  · have hexpand : (num / den).succ * den = den * (num / den) + den := by
      rw [Nat.succ_mul, Nat.mul_comm]
    have hdown : 2 * (num % den) < den := by omega
    simp only [roundHalfEven, if_pos hdown]
    exact Nat.lt_succ_self _

/-- What is less than one half below a whole number is rounded to it if not beyond. -/
theorem le_roundHalfEven_of_lt {num den n : Nat} (hden : 0 < den)
    (h : 2 * (n * den) < 2 * num + den) : n ≤ roundHalfEven num den := by
  rcases Nat.lt_or_ge (num / den) n with hlt | hge
  · have hsplit := Nat.div_add_mod num den
    have hrest := Nat.mod_lt num hden
    have hexpand : (num / den + 1) * den = den * (num / den) + den := by
      rw [Nat.succ_mul, Nat.mul_comm]
    have hn : (num / den + 1) * den ≤ n * den := Nat.mul_le_mul_right den hlt
    have hup : den < 2 * (num % den) := by omega
    have hone : n = num / den + 1 := by
      refine Nat.le_antisymm (Nat.le_of_lt_succ ?_) hlt
      refine Nat.lt_of_mul_lt_mul_right (a := den) ?_
      rw [Nat.succ_mul]
      omega
    rw [hone, roundHalfEven]
    simp only [if_neg (Nat.lt_asymm hup), if_pos hup, Nat.le_refl]
  · exact Nat.le_trans hge (roundHalfEven_bounds num den).1

/-! ## Patterns -/

theorem round_le_round_of_le {num num' den : Nat} (h : num ≤ num') :
    round num den ≤ round num' den := by
  have hquot : num / den ≤ num' / den := Nat.div_le_div_right h
  have hlog : (num / den).log2 ≤ (num' / den).log2 := by
    by_cases hzero : num / den = 0
    · rw [hzero, Nat.log2_zero]
      exact Nat.zero_le _
    · rw [Nat.le_log2 (Nat.ne_of_gt (Nat.lt_of_lt_of_le (Nat.pos_of_ne_zero hzero) hquot))]
      exact Nat.le_trans (Nat.log2_self_le hzero) hquot
  generalize hk : (num / den).log2 - 52 = k
  generalize hk' : (num' / den).log2 - 52 = k'
  simp only [round, hk, hk', Nat.pow_eq]
  refine Nat.le_min.mpr ⟨Nat.le_trans (Nat.min_le_left _ _) ?_, Nat.min_le_right _ _⟩
  rcases Nat.lt_or_eq_of_le (show k ≤ k' by omega) with hlt | rfl
  · -- The smaller quotient carries at most into the next binade.
    have hsmall : roundHalfEven num (den * 2 ^ k) ≤ 2 ^ 53 := by
      apply roundHalfEven_le
      rw [← Nat.div_div_eq_div_mul, log2_div_two_pow]
      omega
    have hlarge : 2 ^ 52 ≤ roundHalfEven num' (den * 2 ^ k') := by
      apply le_roundHalfEven
      rw [← Nat.div_div_eq_div_mul, log2_div_two_pow]
      omega
    simp only [binade]
    omega
  · exact Nat.add_le_add_left (roundHalfEven_le_roundHalfEven _ h) _

/-- Rounding keeps the order of quotients. -/
theorem round_le_round {num num' den den' : Nat} (hden : 0 < den) (hden' : 0 < den')
    (h : num * den' ≤ num' * den) : round num den ≤ round num' den' := by
  rw [← round_mul_mul hden' num den, ← round_mul_mul hden num' den', Nat.mul_comm den' num,
    Nat.mul_comm den num', Nat.mul_comm den' den]
  exact round_le_round_of_le h

/-- Of two finite patterns the greater one stands for more. -/
theorem units_lt_units {m n : Nat} (h : m < n) (hn : n < infinity) : units m < units n := by
  refine Nat.lt_of_not_le fun hle => ?_
  have hback : round (units n) 1 ≤ round (units m) 1 := round_le_round_of_le hle
  rw [round_units hn, round_units (Nat.lt_trans h hn)] at hback
  omega

/-- What is finite is at most the largest finite double; the power is a variable so that it is not
computed. -/
theorem units_le {bits k : Nat} (h : bits < infinity) (hk : k = 2045) :
    units bits ≤ (2 ^ 53 - 1) * 2 ^ k := by
  have hscale : scale bits ≤ k := by
    simp only [scale, infinity, binade] at h ⊢
    omega
  exact Nat.mul_le_mul (Nat.le_pred_of_lt (Number.significand_lt bits))
    (Nat.pow_le_pow_right (by decide) hscale)

/-- What is less than one half of its last place beyond the largest finite double is rounded to a
finite one. -/
theorem round_lt_infinity {num k : Nat} (hk : k = 2044) (h : num < (2 ^ 54 - 1) * 2 ^ k) :
    round num 1 < infinity := by
  have hlog : num.log2 ≤ 53 + k := by
    by_cases hzero : num = 0
    · rw [hzero, Nat.log2_zero]
      exact Nat.zero_le _
    · have hpow : num < 2 ^ (54 + k) := by
        rw [Nat.pow_add]
        exact Nat.lt_of_lt_of_le h (Nat.mul_le_mul_right _ (by decide))
      have := (Nat.log2_lt hzero).mpr hpow
      omega
  generalize hlast : num.log2 - 52 = last
  have hsmall : last * binade + roundHalfEven num (2 ^ last) < infinity := by
    by_cases hend : last = k + 1
    · have hbelow : roundHalfEven num (2 ^ last) < 2 ^ 53 := by
        apply roundHalfEven_lt
        rw [hend, Nat.pow_succ]
        generalize 2 ^ k = p at h ⊢
        omega
      simp only [infinity, binade]
      omega
    · have hle : roundHalfEven num (2 ^ last) ≤ 2 ^ 53 := by
        apply roundHalfEven_le
        rw [log2_div_two_pow]
        omega
      simp only [infinity, binade]
      omega
  rw [round, Nat.div_one, hlast, Nat.one_mul]
  exact Nat.lt_of_le_of_lt (Nat.min_le_left _ _) hsmall

/-- In the middle between the largest finite double and the power of two behind it the finite
doubles end. -/
theorem round_lt_infinity_iff {num k : Nat} (hk : k = 2044) :
    round num 1 < infinity ↔ num < (2 ^ 54 - 1) * 2 ^ k := by
  refine ⟨fun hlt => Nat.lt_of_not_le fun hle => ?_, round_lt_infinity hk⟩
  have hmiddle : round ((2 ^ 54 - 1) * 2 ^ k) 1 = infinity := by
    have hlog : ((2 ^ 54 - 1) * 2 ^ k).log2 = k + 53 := by
      rw [Nat.log2_eq_iff (Nat.mul_ne_zero (by decide) (Nat.ne_of_gt (Nat.two_pow_pos k))),
        Nat.add_comm, Nat.add_right_comm, Nat.pow_add, Nat.pow_add _ _ k]
      exact ⟨Nat.mul_le_mul_right _ (by decide),
        Nat.mul_lt_mul_of_pos_right (by decide) (Nat.two_pow_pos k)⟩
    have hscale : k + 53 - 52 = k + 1 := by omega
    have hround : roundHalfEven ((2 ^ 54 - 1) * 2 ^ k) (2 ^ (k + 1)) = 2 ^ 53 := by
      rw [Nat.mul_comm, Nat.pow_succ 2 k, roundHalfEven_mul_mul (Nat.two_pow_pos k)]
      decide
    rw [round, Nat.div_one, hlog, hscale, Nat.one_mul, Nat.pow_eq, hround, hk]
    decide
  exact Nat.not_lt.mpr (hmiddle ▸ round_le_round_of_le hle) hlt

end Toolpath.Binary64
