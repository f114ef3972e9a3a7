import Mathlib.Algebra.Ring.Int.Defs
import Mathlib.Data.Prod.Lex
import Mathlib.Order.Compare
import Mathlib.Tactic.Tauto
import Toolpath.Number.Rounding

/-! # The order of doubles

Doubles that are numbers are ordered by a rank: the class they fall in, from
the negative infinity through the negative numbers, the zeros and the positive
numbers to the positive infinity, and inside a class the exponent and the
significand. The two zeros share a rank. A double that is not a number is
neither below nor above anything.
-/

namespace Toolpath.Number

open Float.Model

/-- The place of a decoded double in the order. What is not a number has an entry too, which is
never looked at. -/
def unpackedRank : UnpackedFloat → ℤ ×ₗ ℤ ×ₗ ℤ
  | .infinity .negative => toLex (-2, toLex (0, 0))
  | .finite .negative m e _ => toLex (-1, toLex (-e, -m))
  | .zero _ => toLex (0, toLex (0, 0))
  | .finite .positive m e _ => toLex (1, toLex (e, m))
  | .infinity .positive => toLex (2, toLex (0, 0))
  | .notANumber => toLex (0, toLex (0, 0))

/-- The place of a double in the order. -/
def rank (x : Float) : ℤ ×ₗ ℤ ×ₗ ℤ :=
  unpackedRank x.toModel.unpack

private theorem then_eq_lt_iff (e e' : ℤ) (m m' : ℕ) :
    (compare e e').then (compare m m') = .lt ↔ e < e' ∨ e = e' ∧ m < m' := by
  rw [Ordering.then_eq_lt, compare_lt_iff_lt, compare_eq_iff_eq, compare_lt_iff_lt]

private theorem then_eq_gt_iff (e e' : ℤ) (m m' : ℕ) :
    (compare e e').then (compare m m') = .gt ↔ e' < e ∨ e = e' ∧ m' < m := by
  rw [Ordering.then_eq_gt, compare_gt_iff_gt, compare_eq_iff_eq, compare_gt_iff_gt]

private theorem isNaN_infinity (s : UnpackedFloat.Sign) :
    (UnpackedFloat.infinity s).isNaN = false := rfl

private theorem isNaN_zero (s : UnpackedFloat.Sign) : (UnpackedFloat.zero s).isNaN = false := rfl

private theorem isNaN_finite (s : UnpackedFloat.Sign) (m : ℕ) (e : ℤ) (hm : 0 < m) :
    (UnpackedFloat.finite s m e hm).isNaN = false := rfl

private theorem isNaN_notANumber : UnpackedFloat.notANumber.isNaN = true := rfl

/-- Comparing decoded doubles tells which comes first, provided that both are numbers. -/
theorem compare_eq_lt_iff (a b : UnpackedFloat) :
    a.compare b = some .lt ↔
      a.isNaN = false ∧ b.isNaN = false ∧ unpackedRank a < unpackedRank b := by
  rcases a with ⟨_ | _⟩ | _ | _ | ⟨_ | _, m, e, hm⟩ <;>
    rcases b with ⟨_ | _⟩ | _ | _ | ⟨_ | _, m', e', hm'⟩ <;>
    dsimp only [isNaN_infinity, isNaN_zero, isNaN_finite, isNaN_notANumber, UnpackedFloat.compare,
      unpackedRank] <;>
    simp [Prod.Lex.toLex_lt_toLex, then_eq_lt_iff, then_eq_gt_iff]
  decide

theorem compare_eq_eq_iff (a b : UnpackedFloat) :
    a.compare b = some .eq ↔
      a.isNaN = false ∧ b.isNaN = false ∧ unpackedRank a = unpackedRank b := by
  rcases a with ⟨_ | _⟩ | _ | _ | ⟨_ | _, m, e, hm⟩ <;>
    rcases b with ⟨_ | _⟩ | _ | _ | ⟨_ | _, m', e', hm'⟩ <;>
    dsimp only [isNaN_infinity, isNaN_zero, isNaN_finite, isNaN_notANumber, UnpackedFloat.compare,
      unpackedRank] <;>
    simp
  all_goals decide

theorem lt_iff {x y : Float} :
    x < y ↔ x.isNaN = false ∧ y.isNaN = false ∧ rank x < rank y := by
  change decide (x.toModel < y.toModel) = true ↔ _
  rw [decide_eq_true_iff]
  change (x.toModel.unpack.compare y.toModel.unpack == some .lt) = true ↔ _
  rw [beq_iff_eq]
  exact compare_eq_lt_iff _ _

theorem le_iff {x y : Float} :
    x ≤ y ↔ x.isNaN = false ∧ y.isNaN = false ∧ rank x ≤ rank y := by
  have hlt := compare_eq_lt_iff x.toModel.unpack y.toModel.unpack
  have heq := compare_eq_eq_iff x.toModel.unpack y.toModel.unpack
  have hle : x ≤ y ↔ x.toModel.unpack.compare y.toModel.unpack = some .lt ∨
      x.toModel.unpack.compare y.toModel.unpack = some .eq := by
    change decide (x.toModel ≤ y.toModel) = true ↔ _
    rw [decide_eq_true_iff]
    change (x.toModel.unpack.compare y.toModel.unpack).any (·.isLE) = true ↔ _
    rcases x.toModel.unpack.compare y.toModel.unpack with _ | _ | _ | _ <;> simp
  rw [hle, hlt, heq, le_iff_lt_or_eq]
  change _ ↔ x.toModel.unpack.isNaN = false ∧ y.toModel.unpack.isNaN = false ∧
    (unpackedRank _ < unpackedRank _ ∨ unpackedRank _ = unpackedRank _)
  tauto

theorem beq_iff {x y : Float} :
    (x == y) = true ↔ x.isNaN = false ∧ y.isNaN = false ∧ rank x = rank y := by
  change (x.toModel.unpack.compare y.toModel.unpack == some .eq) = true ↔ _
  rw [beq_iff_eq]
  exact compare_eq_eq_iff _ _

/-- A number is equal to itself. -/
theorem beq_self {x : Float} (h : x.isNaN = false) : (x == x) = true :=
  beq_iff.mpr ⟨h, h, rfl⟩

theorem beq_symm {x y : Float} (h : (x == y) = true) : (y == x) = true := by
  obtain ⟨hx, hy, hrank⟩ := beq_iff.mp h
  exact beq_iff.mpr ⟨hy, hx, hrank.symm⟩

theorem beq_trans {x y z : Float} (hxy : (x == y) = true) (hyz : (y == z) = true) :
    (x == z) = true := by
  obtain ⟨hx, -, hxy⟩ := beq_iff.mp hxy
  obtain ⟨-, hz, hyz⟩ := beq_iff.mp hyz
  exact beq_iff.mpr ⟨hx, hz, hxy.trans hyz⟩

theorem lt_irrefl (x : Float) : ¬ x < x := fun h => (lt_iff.mp h).2.2.false

theorem lt_trans {x y z : Float} (hxy : x < y) (hyz : y < z) : x < z := by
  obtain ⟨hx, _, hxy⟩ := lt_iff.mp hxy
  obtain ⟨_, hz, hyz⟩ := lt_iff.mp hyz
  exact lt_iff.mpr ⟨hx, hz, hxy.trans hyz⟩

/-- Of two numbers one is below the other or they are in order the other way round. -/
theorem le_of_not_lt {x y : Float} (hx : x.isNaN = false) (hy : y.isNaN = false) (h : ¬ y < x) :
    x ≤ y := by
  rw [lt_iff] at h
  exact le_iff.mpr ⟨hx, hy, not_lt.mp fun hlt => h ⟨hy, hx, hlt⟩⟩

theorem lt_of_le_of_lt {x y z : Float} (hxy : x ≤ y) (hyz : y < z) : x < z := by
  obtain ⟨hx, _, hxy⟩ := le_iff.mp hxy
  obtain ⟨_, hz, hyz⟩ := lt_iff.mp hyz
  exact lt_iff.mpr ⟨hx, hz, hxy.trans_lt hyz⟩

/-- A finite double is decoded to a zero or to a significand and an exponent. -/
theorem unpack_of_isFinite {x : Float} (h : x.isFinite = true) :
    (∃ s, x.toModel.unpack = .zero s) ∨ ∃ s m e hm, x.toModel.unpack = .finite s m e hm := by
  change x.toModel.unpack.isFinite = true at h
  cases hx : x.toModel.unpack with
  | infinity s => rw [hx] at h; cases h
  | notANumber => rw [hx] at h; cases h
  | zero s => exact .inl ⟨s, rfl⟩
  | finite s m e hm => exact .inr ⟨s, m, e, hm, rfl⟩

/-- A finite double is below the positive infinity. -/
theorem lt_positiveInfinity {x : Float} (h : x.isFinite = true) :
    x < Binary64.positiveInfinity := by
  change decide (x.toModel < Binary64.positiveInfinity.toModel) = true
  rw [decide_eq_true_iff]
  change (x.toModel.unpack.compare (.infinity .positive) == some .lt) = true
  obtain ⟨s, hx⟩ | ⟨s, m, e, hm, hx⟩ := unpack_of_isFinite h
  · rw [hx]
    rfl
  · rw [hx]
    cases s <;> rfl

/-- The smaller of two doubles is below a third one if one of them is. -/
theorem lesser_lt_iff {a b c : Float} : lesser a b < c ↔ a < c ∨ b < c := by
  unfold lesser
  split
  next h =>
    rw [Bool.or_eq_true, decide_eq_true_iff] at h
    refine ⟨.inr, ?_⟩
    rintro (hac | hbc)
    · rcases h with hba | hnan
      · exact lt_trans hba hac
      · rw [(lt_iff.mp hac).1] at hnan
        cases hnan
    · exact hbc
  next h =>
    rw [Bool.or_eq_true, decide_eq_true_iff, not_or] at h
    refine ⟨.inl, ?_⟩
    rintro (hac | hbc)
    · exact hac
    · have hle := le_of_not_lt (Bool.eq_false_iff.mpr h.2) (lt_iff.mp hbc).1 h.1
      exact lt_of_le_of_lt hle hbc

/-- A finite double is above the negative infinity. -/
theorem negativeInfinity_lt {x : Float} (h : x.isFinite = true) :
    Binary64.negativeInfinity < x := by
  change decide (Binary64.negativeInfinity.toModel < x.toModel) = true
  rw [decide_eq_true_iff]
  change (UnpackedFloat.compare (.infinity .negative) x.toModel.unpack == some .lt) = true
  obtain ⟨s, hx⟩ | ⟨s, m, e, hm, hx⟩ := unpack_of_isFinite h
  · rw [hx]
    rfl
  · rw [hx]
    cases s <;> rfl

theorem isNaN_of_isFinite {x : Float} (h : x.isFinite = true) : x.isNaN = false :=
  (lt_iff.mp (lt_positiveInfinity h)).1

theorem le_refl {x : Float} (h : x.isNaN = false) : x ≤ x := by
  rw [le_iff]
  exact ⟨h, h, Preorder.le_refl _⟩

theorem le_of_lt {x y : Float} (h : x < y) : x ≤ y := by
  obtain ⟨hx, hy, hlt⟩ := lt_iff.mp h
  exact le_iff.mpr ⟨hx, hy, hlt.le⟩

theorem le_trans {x y z : Float} (hxy : x ≤ y) (hyz : y ≤ z) : x ≤ z := by
  obtain ⟨hx, -, hxy⟩ := le_iff.mp hxy
  obtain ⟨-, hz, hyz⟩ := le_iff.mp hyz
  exact le_iff.mpr ⟨hx, hz, hxy.trans hyz⟩

/-- Numbers in order both ways are equal up to the sign of zero. -/
theorem beq_of_le_of_le {x y : Float} (hxy : x ≤ y) (hyx : y ≤ x) : (x == y) = true := by
  obtain ⟨hx, hy, hxy⟩ := le_iff.mp hxy
  obtain ⟨-, -, hyx⟩ := le_iff.mp hyx
  exact beq_iff.mpr ⟨hx, hy, le_antisymm hxy hyx⟩

/-! ## The smaller and the larger of two -/

variable {a b : Float}

theorem lesser_eq_or (a b : Float) : lesser a b = a ∨ lesser a b = b := by
  unfold lesser
  split
  · exact .inr rfl
  · exact .inl rfl

theorem greater_eq_or (a b : Float) : greater a b = a ∨ greater a b = b := by
  unfold greater
  split
  · exact .inr rfl
  · exact .inl rfl

theorem isFinite_lesser (ha : a.isFinite = true) (hb : b.isFinite = true) :
    (lesser a b).isFinite = true := by
  rcases lesser_eq_or a b with h | h <;> rwa [h]

theorem isFinite_greater (ha : a.isFinite = true) (hb : b.isFinite = true) :
    (greater a b).isFinite = true := by
  rcases greater_eq_or a b with h | h <;> rwa [h]

theorem lesser_le_right (ha : a.isNaN = false) (hb : b.isNaN = false) : lesser a b ≤ b := by
  unfold lesser
  split
  · exact le_refl hb
  next h =>
    rw [Bool.or_eq_true, decide_eq_true_iff, not_or] at h
    exact le_of_not_lt ha hb h.1

theorem right_le_greater (ha : a.isNaN = false) (hb : b.isNaN = false) : b ≤ greater a b := by
  unfold greater
  split
  · exact le_refl hb
  next h =>
    rw [Bool.or_eq_true, decide_eq_true_iff, not_or] at h
    exact le_of_not_lt hb ha h.1

theorem lesser_le_left (ha : a.isNaN = false) : lesser a b ≤ a := by
  unfold lesser
  split
  next h =>
    rw [ha, Bool.or_false, decide_eq_true_iff] at h
    exact le_of_lt h
  · exact le_refl ha

theorem left_le_greater (ha : a.isNaN = false) : a ≤ greater a b := by
  unfold greater
  split
  next h =>
    rw [ha, Bool.or_false, decide_eq_true_iff] at h
    exact le_of_lt h
  · exact le_refl ha

theorem lesser_of_lt (h : b < a) : lesser a b = b := by
  rw [lesser, decide_eq_true h]
  rfl

theorem greater_of_lt (h : a < b) : greater a b = b := by
  rw [greater, decide_eq_true h]
  rfl

theorem lesser_of_not_lt (ha : a.isNaN = false) (h : ¬b < a) : lesser a b = a := by
  rw [lesser, decide_eq_false h, ha]
  rfl

theorem greater_of_not_lt (ha : a.isNaN = false) (h : ¬a < b) : greater a b = a := by
  rw [greater, decide_eq_false h, ha]
  rfl

theorem le_lesser_iff (ha : a.isNaN = false) (hb : b.isNaN = false) {c : Float} :
    c ≤ lesser a b ↔ c ≤ a ∧ c ≤ b := by
  constructor
  · intro h
    exact ⟨le_trans h (lesser_le_left ha), le_trans h (lesser_le_right ha hb)⟩
  · rintro ⟨hca, hcb⟩
    rcases lesser_eq_or a b with h | h <;> rwa [h]

theorem greater_le_iff (ha : a.isNaN = false) (hb : b.isNaN = false) {c : Float} :
    greater a b ≤ c ↔ a ≤ c ∧ b ≤ c := by
  constructor
  · intro h
    exact ⟨le_trans (left_le_greater ha) h, le_trans (right_le_greater ha hb) h⟩
  · rintro ⟨hac, hbc⟩
    rcases greater_eq_or a b with h | h <;> rwa [h]

/-- The smallest of three is the first of the smallest, however they are taken together. -/
theorem lesser_assoc (a b c : Float) : lesser (lesser a b) c = lesser a (lesser b c) := by
  unfold lesser
  grind [lt_iff]

theorem greater_assoc (a b c : Float) : greater (greater a b) c = greater a (greater b c) := by
  unfold greater
  grind [lt_iff]

end Toolpath.Number
