import Toolpath.Geometry.Box
import Toolpath.Proofs.Motion.Samples
import Toolpath.Proofs.Number.Order

/-! # Valid boxes

The first finite point included in the empty box makes it valid, and finite
points keep it valid. So a box of finite points is either the empty one or
valid, never half set and never the wrong way round.
-/

namespace Toolpath

namespace Box

open Number

/-- Whether a box is what finite points can make of it: still empty, or valid. -/
def Settled (box : Box) : Prop :=
  box = empty ∨ box.isValid = true

variable {box : Box} {p : Point}

theorem isValid_iff :
    box.isValid = true ↔ box.min.isFinite = true ∧ box.max.isFinite = true ∧
      box.min.x ≤ box.max.x ∧ box.min.y ≤ box.max.y ∧ box.min.z ≤ box.max.z := by
  simp only [isValid, Bool.and_eq_true, decide_eq_true_iff, and_assoc]

theorem ne_empty_of_isValid (h : box.isValid = true) : box ≠ empty := by
  rintro rfl
  exact absurd h (by decide +kernel)

theorem insert_empty (hp : p.isFinite = true) : empty.insert p = ⟨p, p⟩ := by
  obtain ⟨hx, hy, hz⟩ := Point.isFinite_iff.mp hp
  have hmin {x : Float} (h : x.isFinite = true) : lesser Binary64.positiveInfinity x = x :=
    lesser_of_lt (lt_positiveInfinity h)
  have hmax {x : Float} (h : x.isFinite = true) : greater Binary64.negativeInfinity x = x :=
    greater_of_lt (negativeInfinity_lt h)
  simp only [insert, empty, hmin hx, hmin hy, hmin hz, hmax hx, hmax hy, hmax hz]

theorem isValid_insert_empty (hp : p.isFinite = true) : (empty.insert p).isValid = true := by
  obtain ⟨hx, hy, hz⟩ := Point.isFinite_iff.mp hp
  rw [insert_empty hp, isValid_iff]
  exact ⟨hp, hp, le_refl (isNaN_of_isFinite hx), le_refl (isNaN_of_isFinite hy),
    le_refl (isNaN_of_isFinite hz)⟩

/-- On every axis the new coordinate lies between the new bounds. -/
theorem lesser_le_greater {a b c : Float} (ha : a.isFinite = true) (hb : b.isFinite = true)
    (hc : c.isFinite = true) : lesser a c ≤ greater b c :=
  le_trans (lesser_le_right (isNaN_of_isFinite ha) (isNaN_of_isFinite hc))
    (right_le_greater (isNaN_of_isFinite hb) (isNaN_of_isFinite hc))

theorem isValid_insert (h : box.isValid = true) (hp : p.isFinite = true) :
    (box.insert p).isValid = true := by
  obtain ⟨hmin, hmax, -⟩ := isValid_iff.mp h
  obtain ⟨hminx, hminy, hminz⟩ := Point.isFinite_iff.mp hmin
  obtain ⟨hmaxx, hmaxy, hmaxz⟩ := Point.isFinite_iff.mp hmax
  obtain ⟨hx, hy, hz⟩ := Point.isFinite_iff.mp hp
  apply isValid_iff.mpr
  refine ⟨?_, ?_, lesser_le_greater hminx hmaxx hx, lesser_le_greater hminy hmaxy hy,
    lesser_le_greater hminz hmaxz hz⟩
  · exact Point.isFinite_iff.mpr
      ⟨isFinite_lesser hminx hx, isFinite_lesser hminy hy, isFinite_lesser hminz hz⟩
  · exact Point.isFinite_iff.mpr
      ⟨isFinite_greater hmaxx hx, isFinite_greater hmaxy hy, isFinite_greater hmaxz hz⟩

theorem Settled.insert (h : box.Settled) (hp : p.isFinite = true) :
    (box.insert p).isValid = true := by
  rcases h with rfl | hvalid
  · exact isValid_insert_empty hp
  · exact isValid_insert hvalid hp

/-- One point is enough to make a box valid. -/
theorem Settled.foldl_insert (h : box.Settled) {points : List Point}
    (hfinite : ∀ p ∈ points, p.isFinite = true) (hne : points ≠ []) :
    (points.foldl Box.insert box).isValid = true := by
  induction points generalizing box with
  | nil => exact absurd rfl hne
  | cons p points ih =>
      obtain ⟨hp, hrest⟩ := List.forall_mem_cons.mp hfinite
      have hvalid := h.insert hp
      rw [List.foldl_cons]
      by_cases hnil : points = []
      · rw [hnil]
        exact hvalid
      · exact ih (.inr hvalid) hrest hnil

/-- A box of finite points is valid as soon as there are any. -/
theorem isValid_ofPoints_iff {points : List Point} (hfinite : ∀ p ∈ points, p.isFinite = true) :
    (ofPoints points).isValid = true ↔ points ≠ [] := by
  constructor
  · rintro hvalid rfl
    exact ne_empty_of_isValid hvalid rfl
  · exact Settled.foldl_insert (.inl rfl) hfinite

end Box

end Toolpath
