import Mathlib.Data.List.Perm.Basic
import Toolpath.Proofs.Geometry.Union

/-! # The least box around some points

A position is below another one if it is on every axis. What lies below the
lower corner of the box of some finite points is what lies below all of the
points, and the same holds above the upper corner. That fixes the box up to the
signs of zeros, so neither the order of the points nor a division of them into
parts that are put together again makes a difference.
-/

namespace Toolpath

open Number

/-- One position is below another, or level with it, on every axis. -/
instance : LE Point :=
  ⟨fun p q => p.x ≤ q.x ∧ p.y ≤ q.y ∧ p.z ≤ q.z⟩

instance (p q : Point) : Decidable (p ≤ q) :=
  inferInstanceAs (Decidable (p.x ≤ q.x ∧ p.y ≤ q.y ∧ p.z ≤ q.z))

namespace Point

variable {p q r : Point}

theorem le_refl_of_isFinite (h : p.isFinite = true) : p ≤ p := by
  obtain ⟨hx, hy, hz⟩ := isFinite_iff.mp h
  exact ⟨le_refl (isNaN_of_isFinite hx), le_refl (isNaN_of_isFinite hy),
    le_refl (isNaN_of_isFinite hz)⟩

theorem le_trans (hpq : p ≤ q) (hqr : q ≤ r) : p ≤ r :=
  ⟨Number.le_trans hpq.1 hqr.1, Number.le_trans hpq.2.1 hqr.2.1, Number.le_trans hpq.2.2 hqr.2.2⟩

theorem beq_iff : (p == q) = true ↔
    (p.x == q.x) = true ∧ (p.y == q.y) = true ∧ (p.z == q.z) = true := by
  change (p.x == q.x && (p.y == q.y && p.z == q.z)) = true ↔ _
  rw [Bool.and_eq_true, Bool.and_eq_true]

/-- Positions below each other are the same up to the signs of zeros. -/
theorem beq_of_le_of_le (hpq : p ≤ q) (hqp : q ≤ p) : (p == q) = true :=
  beq_iff.mpr ⟨Number.beq_of_le_of_le hpq.1 hqp.1, Number.beq_of_le_of_le hpq.2.1 hqp.2.1,
    Number.beq_of_le_of_le hpq.2.2 hqp.2.2⟩

end Point

namespace Box

/-- Whether a position lies in a box, its faces included. -/
def Contains (box : Box) (p : Point) : Prop :=
  box.min ≤ p ∧ p ≤ box.max

instance (box : Box) (p : Point) : Decidable (box.Contains p) :=
  inferInstanceAs (Decidable (_ ∧ _))

variable {box other : Box} {points : List Point} {p q : Point}

theorem beq_iff : (box == other) = true ↔
    (box.min == other.min) = true ∧ (box.max == other.max) = true := by
  change (box.min == other.min && box.max == other.max) = true ↔ _
  rw [Bool.and_eq_true]

/-- The empty box holds nothing: its lower corner is above its upper one. -/
theorem not_contains_empty (p : Point) : ¬empty.Contains p := by
  intro h
  have hle : empty.min ≤ empty.max := Point.le_trans h.1 h.2
  exact absurd hle (by decide +kernel)

section Corners

variable (hvalid : box.isValid = true) (hp : p.isFinite = true)

include hvalid hp

theorem le_min_insert_iff : q ≤ (box.insert p).min ↔ q ≤ box.min ∧ q ≤ p := by
  obtain ⟨⟨hminx, hminy, hminz⟩, -⟩ := isNaN_of_isValid hvalid
  obtain ⟨hx, hy, hz⟩ := Point.isFinite_iff.mp hp
  have hxs := le_lesser_iff (c := q.x) hminx (isNaN_of_isFinite hx)
  have hys := le_lesser_iff (c := q.y) hminy (isNaN_of_isFinite hy)
  have hzs := le_lesser_iff (c := q.z) hminz (isNaN_of_isFinite hz)
  have hyzs := (and_congr hys hzs).trans and_and_and_comm
  exact (and_congr hxs hyzs).trans and_and_and_comm

theorem max_insert_le_iff : (box.insert p).max ≤ q ↔ box.max ≤ q ∧ p ≤ q := by
  obtain ⟨-, hmaxx, hmaxy, hmaxz⟩ := isNaN_of_isValid hvalid
  obtain ⟨hx, hy, hz⟩ := Point.isFinite_iff.mp hp
  have hxs := greater_le_iff (c := q.x) hmaxx (isNaN_of_isFinite hx)
  have hys := greater_le_iff (c := q.y) hmaxy (isNaN_of_isFinite hy)
  have hzs := greater_le_iff (c := q.z) hmaxz (isNaN_of_isFinite hz)
  have hyzs := (and_congr hys hzs).trans and_and_and_comm
  exact (and_congr hxs hyzs).trans and_and_and_comm

end Corners

/-- What is below the lower corner, or above the upper one, after points have been included. -/
theorem corners_foldl_insert (hvalid : box.isValid = true)
    (hfinite : ∀ p ∈ points, p.isFinite = true) (q : Point) :
    (q ≤ (points.foldl insert box).min ↔ q ≤ box.min ∧ ∀ p ∈ points, q ≤ p) ∧
      ((points.foldl insert box).max ≤ q ↔ box.max ≤ q ∧ ∀ p ∈ points, p ≤ q) := by
  induction points generalizing box with
  | nil => simp
  | cons p points ih =>
      obtain ⟨hp, hrest⟩ := List.forall_mem_cons.mp hfinite
      obtain ⟨hmin, hmax⟩ := ih (isValid_insert hvalid hp) hrest
      rw [List.foldl_cons, hmin, hmax, le_min_insert_iff hvalid hp, max_insert_le_iff hvalid hp,
        List.forall_mem_cons, List.forall_mem_cons, and_assoc, and_assoc]
      exact ⟨Iff.rfl, Iff.rfl⟩

section OfPoints

variable (hfinite : ∀ p ∈ points, p.isFinite = true) (hne : points ≠ [])

include hfinite hne

/-- What is below the lower corner of the box of some points, or above the upper one. -/
theorem corners_ofPoints (q : Point) :
    (q ≤ (ofPoints points).min ↔ ∀ p ∈ points, q ≤ p) ∧
      ((ofPoints points).max ≤ q ↔ ∀ p ∈ points, p ≤ q) := by
  cases points with
  | nil => exact absurd rfl hne
  | cons p points =>
      obtain ⟨hp, hrest⟩ := List.forall_mem_cons.mp hfinite
      have hcorners := corners_foldl_insert (isValid_insert_empty hp) hrest q
      rw [insert_empty hp] at hcorners
      rw [ofPoints, List.foldl_cons, insert_empty hp, List.forall_mem_cons, List.forall_mem_cons]
      exact hcorners

theorem contains_ofPoints (hp : p ∈ points) : (ofPoints points).Contains p := by
  obtain ⟨hmin, hmax, -⟩ := isValid_iff.mp ((isValid_ofPoints_iff hfinite).mpr hne)
  exact ⟨(corners_ofPoints hfinite hne _).1.mp (Point.le_refl_of_isFinite hmin) p hp,
    (corners_ofPoints hfinite hne _).2.mp (Point.le_refl_of_isFinite hmax) p hp⟩

/-- A box around some points is a box around their box. -/
theorem contains_of_contains_ofPoints (hother : ∀ p ∈ points, other.Contains p)
    (hq : (ofPoints points).Contains q) : other.Contains q := by
  have hmin : other.min ≤ (ofPoints points).min :=
    (corners_ofPoints hfinite hne _).1.mpr fun p hp => (hother p hp).1
  have hmax : (ofPoints points).max ≤ other.max :=
    (corners_ofPoints hfinite hne _).2.mpr fun p hp => (hother p hp).2
  exact ⟨Point.le_trans hmin hq.1, Point.le_trans hq.2 hmax⟩

end OfPoints

/-- Points in another order have the same box, up to the signs of zeros. -/
theorem ofPoints_beq_of_perm {points' : List Point} (hperm : points'.Perm points)
    (hfinite : ∀ p ∈ points, p.isFinite = true) : (ofPoints points' == ofPoints points) = true := by
  by_cases hne : points = []
  · subst hne
    rw [hperm.eq_nil]
    decide +kernel
  have hfinite' : ∀ p ∈ points', p.isFinite = true := fun p hp => hfinite p (hperm.mem_iff.mp hp)
  have hne' : points' ≠ [] := fun hnil => hne (hperm.symm.trans (hnil ▸ .refl _)).eq_nil
  have hcontains : ∀ p ∈ points, (ofPoints points').Contains p := fun p hp =>
    contains_ofPoints hfinite' hne' (hperm.mem_iff.mpr hp)
  have hcontains' : ∀ p ∈ points', (ofPoints points).Contains p := fun p hp =>
    contains_ofPoints hfinite hne (hperm.mem_iff.mp hp)
  refine beq_iff.mpr ⟨Point.beq_of_le_of_le ?_ ?_, Point.beq_of_le_of_le ?_ ?_⟩
  · exact (corners_ofPoints hfinite hne _).1.mpr fun p hp => (hcontains p hp).1
  · exact (corners_ofPoints hfinite' hne' _).1.mpr fun p hp => (hcontains' p hp).1
  · exact (corners_ofPoints hfinite' hne' _).2.mpr fun p hp => (hcontains' p hp).2
  · exact (corners_ofPoints hfinite hne _).2.mpr fun p hp => (hcontains p hp).2

/-- The boxes of two parts, either of which may be empty, make the box of the whole. -/
theorem merge_ofPoints_append {first second : List Point}
    (hfinite : ∀ p ∈ second, p.isFinite = true) :
    (ofPoints first).merge (ofPoints second) = ofPoints (first ++ second) := by
  by_cases hne : second = []
  · subst hne
    have hinvalid : ¬(ofPoints []).isValid = true := mt (isValid_ofPoints_iff hfinite).mp (by simp)
    rw [merge, if_neg hinvalid, List.append_nil]
  · rw [merge_ofPoints _ hfinite hne, ofPoints, ofPoints, List.foldl_append]

/-- The box of finite points is the least one around them: it is valid as soon as there are any, it
holds each of them, and whatever lies in it lies in every box that holds them. The order of the
points only decides on the signs of zeros, and merging the boxes of two parts gives the box of the
whole, down to these signs if the parts follow each other. -/
theorem ofPoints_isLeast (points : List Point) (hfinite : ∀ p ∈ points, p.isFinite = true) :
    let box := ofPoints points
    (box.isValid = true ↔ points ≠ []) ∧
      (∀ p ∈ points, box.Contains p) ∧
      (∀ other : Box, (∀ p ∈ points, other.Contains p) → ∀ q, box.Contains q → other.Contains q) ∧
      (∀ points' : List Point, points'.Perm points → (ofPoints points' == box) = true) ∧
      (∀ first second : List Point, first ++ second = points →
        (ofPoints first).merge (ofPoints second) = box) ∧
      ∀ first second : List Point, (first ++ second).Perm points →
        ((ofPoints first).merge (ofPoints second) == box) = true := by
  intro box
  refine ⟨isValid_ofPoints_iff hfinite, ?_, ?_, ?_, ?_, ?_⟩
  · intro p hp
    exact contains_ofPoints hfinite (List.ne_nil_of_mem hp) hp
  · intro other hother q hq
    by_cases hne : points = []
    · subst hne
      exact absurd hq (not_contains_empty q)
    · exact contains_of_contains_ofPoints hfinite hne hother hq
  · intro points' hperm
    exact ofPoints_beq_of_perm hperm hfinite
  · rintro first second rfl
    exact merge_ofPoints_append (List.forall_mem_append.mp hfinite).2
  · intro first second hperm
    have hparts : ∀ p ∈ first ++ second, p.isFinite = true := fun p hp =>
      hfinite p (hperm.mem_iff.mp hp)
    rw [merge_ofPoints_append (List.forall_mem_append.mp hparts).2]
    exact ofPoints_beq_of_perm hperm hfinite

/-- With zeros of both signs the order of the points can be told from the box, but not by comparing
it. -/
theorem ofPoints_isLeast_of_zeros :
    let p : Point := ⟨0.0, 1.0, -2.5⟩
    let q : Point := ⟨-0.0, -3.0, 4.0⟩
    (∀ r ∈ [p, q], r.isFinite = true) ∧ (ofPoints [p, q]).Contains q ∧
      ofPoints [q, p] ≠ ofPoints [p, q] ∧ (ofPoints [q, p] == ofPoints [p, q]) = true ∧
      (ofPoints [p]).merge (ofPoints [q]) = ofPoints [p, q] ∧
      (ofPoints [p, q]).merge (ofPoints []) = ofPoints [p, q] := by
  intro p q
  have hfinite : ∀ r ∈ [p, q], r.isFinite = true := by decide +kernel
  obtain ⟨-, hcontains, -, hperm, hmerge, -⟩ := ofPoints_isLeast [p, q] hfinite
  refine ⟨hfinite, hcontains q (by simp), ?_, hperm _ (.swap p q []), hmerge [p] [q] rfl,
    hmerge [p, q] [] rfl⟩
  decide +kernel

end Box

end Toolpath
