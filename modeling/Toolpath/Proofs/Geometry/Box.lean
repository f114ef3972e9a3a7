import Toolpath.Geometry.Box
import Toolpath.Proofs.Number.Order

/-! # Boxes of points

A box stays unset until a point with a finite coordinate is included in it, and
once set it never becomes unset again.
-/

namespace Toolpath

namespace Box

open Number

/-- Widening a box moves its lower corner below a bound if a point below the bound is included. -/
theorem foldl_insert_lt_iff {box : Box} {points : List Point} {bound : Float} :
    (points.foldl insert box).min.x < bound ↔ box.min.x < bound ∨ ∃ p ∈ points, p.x < bound := by
  induction points generalizing box with
  | nil => simp
  | cons p points ih =>
      rw [List.foldl_cons, ih]
      change lesser box.min.x p.x < bound ∨ _ ↔ _
      rw [lesser_lt_iff, or_assoc]
      simp only [List.mem_cons, exists_eq_or_imp]

/-- A box that includes a finite point is not the box of no points. -/
theorem ofPoints_ne_empty {points : List Point} {p : Point} (hmem : p ∈ points)
    (hp : p.isFinite = true) : ofPoints points ≠ empty := by
  intro hempty
  have hx : p.x.isFinite = true := by
    simp only [Point.isFinite, Bool.and_eq_true] at hp
    exact hp.1.1
  have hset : (ofPoints points).min.x < Binary64.positiveInfinity :=
    foldl_insert_lt_iff.mpr (.inr ⟨p, hmem, lt_positiveInfinity hx⟩)
  rw [hempty] at hset
  exact lt_irrefl _ hset

end Box

end Toolpath
