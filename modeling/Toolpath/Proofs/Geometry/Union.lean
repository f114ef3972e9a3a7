import Toolpath.Proofs.Geometry.Validity

/-! # Boxes put together

Merging the box of some points into another box comes to the same as including
the points one by one. Both corners of the box go in as points, and neither of
them reaches beyond the points it was made of; where they lie at the same
height, they are the same double, so that not even the sign of a zero tells the
two ways apart.
-/

namespace Toolpath.Box

open Number

/-- Whether one double is below another, or the same. Unlike `≤` this keeps the two zeros apart. -/
def Below (low high : Float) : Prop :=
  low = high ∨ low < high

/-- Whether the lower corner is below the upper one on every axis. -/
structure IsTight (box : Box) : Prop where
  x : Below box.min.x box.max.x
  y : Below box.min.y box.max.y
  z : Below box.min.z box.max.z

/-- The box of two boxes, corner by corner. -/
def join (box other : Box) : Box where
  min := ⟨lesser box.min.x other.min.x, lesser box.min.y other.min.y, lesser box.min.z other.min.z⟩
  max := ⟨greater box.max.x other.max.x, greater box.max.y other.max.y,
    greater box.max.z other.max.z⟩

section Below

variable {low high a : Float}

theorem Below.lesser_eq (h : Below low high) (hlow : low.isNaN = false) :
    lesser low high = low := by
  apply lesser_of_not_lt hlow
  intro hlt
  rcases h with rfl | h
  · exact lt_irrefl _ hlt
  · exact lt_irrefl _ (lt_trans h hlt)

theorem Below.greater_eq (h : Below low high) (hlow : low.isNaN = false) :
    greater low high = high := by
  rcases h with rfl | h
  · exact greater_of_not_lt hlow (lt_irrefl _)
  · exact greater_of_lt h

/-- One more coordinate leaves the bounds of an axis in order. -/
theorem Below.widen (h : Below low high) (hlow : low.isNaN = false) (hhigh : high.isNaN = false) :
    Below (lesser low a) (greater high a) := by
  have hbelow {c : Float} (hc : c < low) : c < high := by
    rcases h with rfl | h
    · exact hc
    · exact lt_trans hc h
  have habove {c : Float} (hc : high < c) : low < c := by
    rcases h with rfl | h
    · exact hc
    · exact lt_trans h hc
  by_cases ha : a < low
  · rw [lesser_of_lt ha, greater_of_not_lt hhigh fun hlt => lt_irrefl _ (lt_trans hlt (hbelow ha))]
    exact .inr (hbelow ha)
  · rw [lesser_of_not_lt hlow ha]
    by_cases ha' : high < a
    · rw [greater_of_lt ha']
      exact .inr (habove ha')
    · rw [greater_of_not_lt hhigh ha']
      exact h

end Below

variable {box other : Box} {p : Point} {points : List Point}

theorem isTight_insert_empty (hp : p.isFinite = true) : (empty.insert p).IsTight := by
  rw [insert_empty hp]
  exact ⟨.inl rfl, .inl rfl, .inl rfl⟩

/-- The coordinates of finite corners are numbers. -/
theorem isNaN_of_isValid (h : box.isValid = true) :
    (box.min.x.isNaN = false ∧ box.min.y.isNaN = false ∧ box.min.z.isNaN = false) ∧
      box.max.x.isNaN = false ∧ box.max.y.isNaN = false ∧ box.max.z.isNaN = false := by
  obtain ⟨hmin, hmax, -⟩ := isValid_iff.mp h
  obtain ⟨hminx, hminy, hminz⟩ := Point.isFinite_iff.mp hmin
  obtain ⟨hmaxx, hmaxy, hmaxz⟩ := Point.isFinite_iff.mp hmax
  exact ⟨⟨isNaN_of_isFinite hminx, isNaN_of_isFinite hminy, isNaN_of_isFinite hminz⟩,
    isNaN_of_isFinite hmaxx, isNaN_of_isFinite hmaxy, isNaN_of_isFinite hmaxz⟩

theorem IsTight.insert (h : box.IsTight) (hvalid : box.isValid = true) (p : Point) :
    (box.insert p).IsTight := by
  obtain ⟨⟨hminx, hminy, hminz⟩, hmaxx, hmaxy, hmaxz⟩ := isNaN_of_isValid hvalid
  exact ⟨h.x.widen hminx hmaxx, h.y.widen hminy hmaxy, h.z.widen hminz hmaxz⟩

/-- A box of finite points is tight. -/
theorem isTight_foldl_insert (hvalid : box.isValid = true) (h : box.IsTight)
    (hfinite : ∀ p ∈ points, p.isFinite = true) : (points.foldl insert box).IsTight := by
  induction points generalizing box with
  | nil => exact h
  | cons p points ih =>
      obtain ⟨hp, hrest⟩ := List.forall_mem_cons.mp hfinite
      exact ih (isValid_insert hvalid hp) (h.insert hvalid p) hrest

/-- A box that is merged is joined: its corners as points add what its bounds add. -/
theorem merge_eq_join (hvalid : other.isValid = true) (h : other.IsTight) :
    box.merge other = box.join other := by
  obtain ⟨⟨hx, hy, hz⟩, -⟩ := isNaN_of_isValid hvalid
  rw [merge, if_pos hvalid]
  simp only [insert, join, lesser_assoc, greater_assoc, h.x.lesser_eq hx, h.y.lesser_eq hy,
    h.z.lesser_eq hz, h.x.greater_eq hx, h.y.greater_eq hy, h.z.greater_eq hz]

theorem join_insert (box other : Box) (p : Point) :
    box.join (other.insert p) = (box.join other).insert p := by
  simp only [join, insert, lesser_assoc, greater_assoc]

theorem join_foldl_insert (box other : Box) (points : List Point) :
    box.join (points.foldl insert other) = points.foldl insert (box.join other) := by
  induction points generalizing other with
  | nil => rfl
  | cons p points ih => rw [List.foldl_cons, ih, join_insert, List.foldl_cons]

/-- Merging the box of some points is including the points. -/
theorem merge_ofPoints (box : Box) (hfinite : ∀ p ∈ points, p.isFinite = true)
    (hne : points ≠ []) : box.merge (ofPoints points) = points.foldl insert box := by
  cases points with
  | nil => exact absurd rfl hne
  | cons p points =>
      obtain ⟨hp, hrest⟩ := List.forall_mem_cons.mp hfinite
      have hvalid := Settled.foldl_insert (.inl rfl) hfinite hne
      have htight := isTight_foldl_insert (isValid_insert_empty hp) (isTight_insert_empty hp) hrest
      rw [ofPoints, merge_eq_join hvalid htight, List.foldl_cons, join_foldl_insert, insert_empty hp]
      rfl

end Toolpath.Box
