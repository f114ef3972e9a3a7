import Mathlib.Tactic.LinearCombination
import Toolpath.Motion.Segment
import Toolpath.Proofs.Number.Order
import Toolpath.Proofs.Number.Whole

/-! # The number of samples

The number of samples is the whole part of the number of steps with a slack
added. The slack makes up for a quotient that was rounded down below a whole
number. It is the same for all numbers of steps, though, so that it is no
relative one: beside a large number of steps it is lost in the rounding.
-/

namespace Toolpath

open Binary64

namespace MotionSegment

/-- The significand of the slack. -/
def slackSignificand : Nat := 0x112E0BE826D695

theorem slackSignificand_lt : slackSignificand < 2 ^ 53 := by decide

theorem slackSignificand_odd : slackSignificand % 2 = 1 := by decide

/-- The power is a variable so that it is not computed. -/
theorem value_stepSlack {j : Nat} (h : j = 992) :
    value stepSlack = (slackSignificand * 2 ^ j : Nat) := by
  subst h
  decide +kernel

theorem isFinite_stepSlack : stepSlack.isFinite = true := by decide +kernel

theorem isFinite_add_stepSlack {x : Float} (hx : x.isFinite = true) :
    (x + stepSlack).isFinite = true := by
  obtain ⟨k, hk⟩ : ∃ k, k = 1587 := ⟨_, rfl⟩
  obtain ⟨j, hj⟩ : ∃ j, j = 992 := ⟨_, rfl⟩
  refine isFinite_add hk hx isFinite_stepSlack ?_
  rw [← natAbs_value, value_stepSlack hj, Int.natAbs_natCast]
  calc slackSignificand * 2 ^ j
    _ < 2 ^ 53 * 2 ^ j := Nat.mul_lt_mul_of_pos_right slackSignificand_lt (Nat.two_pow_pos j)
    _ = 2 ^ (53 + j) := (Nat.pow_add ..).symm
    _ ≤ 2 ^ k := Nat.pow_le_pow_right (by decide) (by omega)

/-- A number of steps with the slack added is never in the middle between a whole number and the
double below it: the slack has a bit that is far behind the last one of either. -/
theorem two_mul_add_stepSlack_ne {x : Float} {m k : Nat} (hm : 2 ^ 52 < m) (hk : 1021 ≤ k) :
    2 * (value x + value stepSlack) + (2 ^ k : Nat) ≠ 2 * (m * 2 ^ k : Nat) := by
  obtain ⟨j, hj⟩ : ∃ j, j = 992 := ⟨_, rfl⟩
  obtain ⟨i, rfl⟩ : ∃ i, k = i + 2 + j := ⟨k - 2 - j, by omega⟩
  intro hmiddle
  have hlarge : 2 ^ 27 ≤ 2 ^ i := Nat.pow_le_pow_right (by decide) (by omega)
  have hpos : 0 < 2 ^ j := Nat.two_pow_pos j
  have hm' : (2 ^ 52 + 1) * 2 ^ i ≤ m * 2 ^ i := Nat.mul_le_mul_right _ hm
  have hslack := slackSignificand_lt
  -- The number of steps would be an odd multiple of the last bit of the slack.
  obtain ⟨t, ht⟩ : ∃ t, 4 * (m * 2 ^ i) = t + 2 * 2 ^ i + slackSignificand :=
    ⟨4 * (m * 2 ^ i) - 2 * 2 ^ i - slackSignificand, by omega⟩
  have hvalue : value x = (t * 2 ^ j : Nat) := by
    rw [value_stepSlack hj, Nat.pow_add, Nat.pow_add] at hmiddle
    have hcast : (4 : Int) * (m * 2 ^ i) = t + 2 * 2 ^ i + slackSignificand := by exact_mod_cast ht
    push_cast at hmiddle ⊢
    have htwice : 2 * value x = 2 * (t * 2 ^ j) := by
      linear_combination hmiddle + 2 * 2 ^ j * hcast
    omega
  have hunits : units (magnitude x) = t * 2 ^ j := by
    rw [← natAbs_value, hvalue, Int.natAbs_natCast]
  have hle : 2 ^ (53 + j) ≤ units (magnitude x) := by
    rw [hunits, Nat.pow_add]
    exact Nat.mul_le_mul_right _ (by omega)
  have hdvd := two_pow_dvd_units hle
  rw [hunits, Nat.pow_succ', Nat.mul_dvd_mul_iff_right hpos] at hdvd
  have hodd := slackSignificand_odd
  omega

theorem le_toRat_stepSlack : 1 / 10 ^ 9 ≤ toRat stepSlack := by
  rw [toRat_eq (i := 82) (j := 992) (by decide) (value_stepSlack rfl), slackSignificand]
  norm_num

/-- There are as many samples as a whole number says just when the number of steps falls short of
it by less than the slack and one half of the distance to the double below it. What falls short by
one part in a billion of a single step is made up for, however many steps there are, but not what
falls short by one part in a billion of all of them. -/
theorem le_stepCount_iff {segment : MotionSegment} {step : Float} (hpos : 0.0 < step)
    (hstep : step.isFinite = true) (hratio : (segment.length / step).isFinite = true) {n : Nat}
    (hn : 1 ≤ n) (hle : n ≤ 2 ^ 53) :
    let steps := toRat (segment.length / step)
    (n ≤ segment.stepCount step ↔
      (n : ℚ) < steps + toRat stepSlack + 2 ^ ((Nat.clog 2 n : ℤ) - 54)) ∧
    ((n : ℚ) - 1 / 10 ^ 9 ≤ steps → n ≤ segment.stepCount step) := by
  intro steps
  have hnot : ¬step ≤ 0.0 := fun hle => Number.lt_irrefl step (Number.lt_of_le_of_lt hle hpos)
  have hcount : segment.stepCount step = (segment.length / step + stepSlack).toUInt64.toNat := by
    simp [stepCount, hnot, hstep, hratio]
  have hiff : n ≤ segment.stepCount step ↔
      (n : ℚ) < steps + toRat stepSlack + 2 ^ ((Nat.clog 2 n : ℤ) - 54) := by
    rw [hcount]
    exact le_toNat_add_iff hratio isFinite_stepSlack (isFinite_add_stepSlack hratio) hn hle
      fun m hm => two_mul_add_stepSlack_ne hm (Nat.le_add_left _ _)
  refine ⟨hiff, fun hshort => hiff.mpr ?_⟩
  have hspacing : (0 : ℚ) < 2 ^ ((Nat.clog 2 n : ℤ) - 54) := zpow_pos two_pos _
  calc (n : ℚ)
    _ ≤ steps + 1 / 10 ^ 9 := sub_le_iff_le_add.mp hshort
    _ ≤ steps + toRat stepSlack := add_le_add_right le_toRat_stepSlack steps
    _ < steps + toRat stepSlack + 2 ^ ((Nat.clog 2 n : ℤ) - 54) := lt_add_of_pos_right _ hspacing

/-- Three tenths divided by one tenth are rounded to less than three, but there are three
samples. -/
theorem le_stepCount_of_tenths :
    let segment : MotionSegment := { start := ⟨0, 0, 0⟩, stop := ⟨0.3, 0, 0⟩ }
    let steps := toRat (segment.length / 0.1)
    (3 : Nat) - 1 / 10 ^ 9 ≤ steps ∧ steps < (3 : Nat) ∧ 3 ≤ segment.stepCount 0.1 := by
  intro segment steps
  have hvalue {j : Nat} (hj : j = 1023) :
      value (segment.length / 0.1) = (0x17FFFFFFFFFFFF * 2 ^ j : Nat) := by
    subst hj
    decide +kernel
  have hsteps : steps = (0x17FFFFFFFFFFFF : Nat) / 2 ^ 51 :=
    toRat_eq (j := 1023) (by decide) (hvalue rfl)
  have hshort : ((3 : Nat) : ℚ) - 1 / 10 ^ 9 ≤ steps := by
    rw [hsteps]
    norm_num
  have hless : steps < (3 : Nat) := by
    rw [hsteps]
    norm_num
  exact ⟨hshort, hless, (le_stepCount_iff (by decide +kernel) (by decide +kernel)
    (by decide +kernel) (by decide) (by decide)).2 hshort⟩

/-- A quotient that is the last double below a whole number of steps, so that it falls short of it
by much less than one part in a billion, loses a sample. -/
theorem le_stepCount_iff_loses :
    let segment : MotionSegment := { start := ⟨0, 0, 0⟩, stop := ⟨1677721.9, 0, 0⟩ }
    let steps := toRat (segment.length / 0.1)
    (0.0 : Float) < 0.1 ∧ (0.1 : Float).isFinite = true ∧
      (segment.length / 0.1).isFinite = true ∧ 16777219 ≤ 2 ^ 53 ∧
      (16777219 : ℚ) * (1 - 1 / 10 ^ 9) ≤ steps ∧ steps ≤ 16777219 ∧
      segment.stepCount 0.1 = 16777218 := by
  intro segment steps
  have hvalue {j : Nat} (hj : j = 1046) :
      value (segment.length / 0.1) = (0x1000002FFFFFFF * 2 ^ j : Nat) := by
    subst hj
    decide +kernel
  have hsteps : steps = (0x1000002FFFFFFF : Nat) / 2 ^ 28 :=
    toRat_eq (j := 1046) (by decide) (hvalue rfl)
  rw [hsteps]
  exact ⟨by decide +kernel, by decide +kernel, by decide +kernel, by decide, by norm_num,
    by norm_num, by decide +kernel⟩

end MotionSegment

end Toolpath
