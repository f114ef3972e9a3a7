import Toolpath.Proofs.Cloud.Validity
import Toolpath.Proofs.Json.Doubles

/-! # Rounded clouds are short

A sample along a segment is no further from zero on any axis than three times
the ends of the segment, however the steps that lead to it are rounded. If
coordinates are rounded to places, and three times the ends would still have at
most fourteen digits with as many places, then every coordinate of the cloud and
of its box is short, and the document of the cloud is read as the cloud.
-/

namespace Toolpath

open Json Number

namespace Binary64

/-- Whether a double is finite and no further from zero than a whole number. -/
def Within (n : Nat) (x : Float) : Prop :=
  x.isFinite = true ∧ units (magnitude x) ≤ n * one

variable {m n : Nat} {x y : Float}

theorem Within.mono (hx : Within m x) (h : m ≤ n) : Within n x :=
  ⟨hx.1, Nat.le_trans hx.2 (Nat.mul_le_mul_right _ h)⟩

/-- Whole numbers are doubles, so that rounding does not go beyond them. -/
theorem within_of_magnitude_le (hn : n < 2 ^ 53) (h : magnitude x ≤ round (n * one) 1) :
    Within n x :=
  ⟨isFinite_iff.mpr (Nat.lt_of_le_of_lt h (isExact_whole hn).round_lt), units_le_of_le_round hn h⟩

theorem Within.natAbs_value_le (hx : Within n x) : (value x).natAbs ≤ n * one := by
  rw [natAbs_value]
  exact hx.2

theorem Within.add (hx : Within m x) (hy : Within n y) (h : m + n < 2 ^ 53) :
    Within (m + n) (x + y) := by
  apply within_of_magnitude_le h
  rw [magnitude_add hx.1 hy.1]
  apply round_le_round_of_le
  calc (value x + value y).natAbs
    _ ≤ (value x).natAbs + (value y).natAbs := Int.natAbs_add_le ..
    _ ≤ m * one + n * one := Nat.add_le_add hx.natAbs_value_le hy.natAbs_value_le
    _ = (m + n) * one := (Nat.add_mul ..).symm

theorem Within.sub (hx : Within m x) (hy : Within n y) (h : m + n < 2 ^ 53) :
    Within (m + n) (x - y) := by
  apply within_of_magnitude_le h
  rw [magnitude_sub hx.1 hy.1]
  apply round_le_round_of_le
  calc (value x - value y).natAbs
    _ ≤ (value x).natAbs + (value y).natAbs := Int.natAbs_sub_le ..
    _ ≤ m * one + n * one := Nat.add_le_add hx.natAbs_value_le hy.natAbs_value_le
    _ = (m + n) * one := (Nat.add_mul ..).symm

/-- A factor that is at most one leaves a double where it was. -/
theorem Within.mul (hx : Within n x) (hy : y.isFinite = true) (h : magnitude y ≤ onePattern) :
    Within n (x * y) := by
  have hle := magnitude_mul_le hx.1 hy h
  have hlt := magnitude_lt_infinity hx.1
  exact ⟨isFinite_iff.mpr (Nat.lt_of_le_of_lt hle hlt),
    Nat.le_trans (units_le_units hle hlt) hx.2⟩

end Binary64

open Binary64

namespace Point

variable {n : Nat} {p q : Point}

/-- Whether no coordinate is further from zero than a whole number. -/
def IsWithin (n : Nat) (p : Point) : Prop :=
  ∀ x ∈ p.toList, Within n x

theorem isWithin_iff : p.IsWithin n ↔ Within n p.x ∧ Within n p.y ∧ Within n p.z := by
  simp only [IsWithin, toList, List.forall_mem_cons, List.not_mem_nil, false_implies, implies_true,
    and_true]

theorem IsWithin.isFinite (h : p.IsWithin n) : p.isFinite = true := by
  obtain ⟨hx, hy, hz⟩ := isWithin_iff.mp h
  exact isFinite_iff.mpr ⟨hx.1, hy.1, hz.1⟩

theorem IsWithin.mono {m : Nat} (hp : p.IsWithin m) (h : m ≤ n) : p.IsWithin n :=
  fun x hx => (hp x hx).mono h

/-- The way between two positions is at most twice as long as they are far from zero. -/
theorem IsWithin.lerp (hp : p.IsWithin n) (hq : q.IsWithin n) (hn : 3 * n < 2 ^ 53)
    {t : Float} (ht : t.isFinite = true) (hone : magnitude t ≤ onePattern) :
    (p.lerp q t).IsWithin (3 * n) := by
  have hsum : 3 * n = n + (n + n) := by omega
  have halong {x y : Float} (hx : Within n x) (hy : Within n y) :
      Within (3 * n) (x + (y - x) * t) := by
    rw [hsum]
    exact hx.add ((hy.sub hx (by omega)).mul ht hone) (by omega)
  obtain ⟨hpx, hpy, hpz⟩ := isWithin_iff.mp hp
  obtain ⟨hqx, hqy, hqz⟩ := isWithin_iff.mp hq
  exact isWithin_iff.mpr ⟨halong hpx hqx, halong hpy hqy, halong hpz hqz⟩

/-- A position that is rounded has short coordinates unless it is very far from zero. -/
theorem IsWithin.isShort_rounded {places : Nat} (h : p.IsWithin n)
    (hn : n * 10 ^ min places maxPlaces ≤ 10 ^ 14) :
    ∀ x ∈ (p.rounded places).toList, IsShort x := by
  have hround {x : Float} (hx : Within n x) : IsShort (roundTo x places) := by
    apply isShort_roundTo hx.1
    calc units (magnitude x) * 10 ^ min places maxPlaces
      _ ≤ n * one * 10 ^ min places maxPlaces := Nat.mul_le_mul_right _ hx.2
      _ = n * 10 ^ min places maxPlaces * one := Nat.mul_right_comm ..
      _ ≤ 10 ^ 14 * one := Nat.mul_le_mul_right _ hn
  obtain ⟨hx, hy, hz⟩ := isWithin_iff.mp h
  simp only [rounded, toList, List.forall_mem_cons]
  exact ⟨hround hx, hround hy, hround hz, List.forall_mem_nil _⟩

end Point

/-- Whether a segment runs between positions that are no further from zero than a whole number. -/
def MotionSegment.IsWithin (n : Nat) (segment : MotionSegment) : Prop :=
  segment.start.IsWithin n ∧ segment.stop.IsWithin n

namespace MotionSegment

variable {n : Nat} {segment : MotionSegment}

/-- Whatever the mode and the step, the points of a segment are not much further from zero than its
ends. -/
theorem IsWithin.of_mem_points (h : segment.IsWithin n) (hn : 3 * n < 2 ^ 53)
    {options : DecodeOptions} {p : Point} (hp : p ∈ (segment.points options).toList) :
    p.IsWithin (3 * n) := by
  rcases eq_stop_or_exists_sample hp with rfl | ⟨steps, i, hi, hsteps, -, rfl⟩
  · exact h.2.mono (by omega)
  · obtain ⟨hratio, hone⟩ := SegmentPoints.magnitude_fraction_le hi hsteps
    exact h.1.lerp h.2 hn hratio hone

theorem IsWithin.of_mem_corners (h : segment.IsWithin n) (hn : 3 * n < 2 ^ 53)
    {decode : DecodeOptions} {room : Option Nat} {p : Point}
    (hp : p ∈ segment.corners decode room) : p.IsWithin (3 * n) := by
  rcases Assembler.mem_of_mem_corners hp with rfl | rfl | hpoint
  · exact h.1.mono (by omega)
  · exact h.2.mono (by omega)
  · exact h.of_mem_points hn hpoint

end MotionSegment

namespace Box

variable {box : Box} {P : Float → Prop}

/-- The corners of a box that is written, none if it is written as null. -/
def corners (box : Box) : List Point :=
  if box.isValid then [box.min, box.max] else []

/-- Whether the coordinates of a box, if it is not the empty one, have a property. -/
def MadeOf (P : Float → Prop) (box : Box) : Prop :=
  box = empty ∨ ∀ q ∈ [box.min, box.max], ∀ x ∈ q.toList, P x

/-- A box that is widened has no coordinates but its own and those of the point. -/
theorem MadeOf.insert {p : Point} (h : box.MadeOf P) (hfinite : p.isFinite = true)
    (hp : ∀ x ∈ p.toList, P x) : (box.insert p).MadeOf P := by
  right
  rcases h with rfl | hbox
  · rw [insert_empty hfinite]
    simp only [List.forall_mem_cons]
    exact ⟨hp, hp, List.forall_mem_nil _⟩
  · have hlesser {a b : Float} (ha : P a) (hb : P b) : P (lesser a b) := by
      rcases lesser_eq_or a b with heq | heq
      · rwa [heq]
      · rwa [heq]
    have hgreater {a b : Float} (ha : P a) (hb : P b) : P (greater a b) := by
      rcases greater_eq_or a b with heq | heq
      · rwa [heq]
      · rwa [heq]
    simp only [List.forall_mem_cons, Point.toList, Box.insert] at hbox hp ⊢
    obtain ⟨⟨hminx, hminy, hminz, -⟩, ⟨hmaxx, hmaxy, hmaxz, -⟩, -⟩ := hbox
    obtain ⟨hx, hy, hz, hnil⟩ := hp
    exact ⟨⟨hlesser hminx hx, hlesser hminy hy, hlesser hminz hz, hnil⟩,
      ⟨hgreater hmaxx hx, hgreater hmaxy hy, hgreater hmaxz hz, hnil⟩, List.forall_mem_nil _⟩

theorem MadeOf.foldl_insert {points : List Point} (h : box.MadeOf P)
    (hfinite : ∀ p ∈ points, p.isFinite = true) (hpoints : ∀ p ∈ points, ∀ x ∈ p.toList, P x) :
    (points.foldl Box.insert box).MadeOf P := by
  induction points generalizing box with
  | nil => exact h
  | cons p points ih =>
      obtain ⟨hp, hfinite⟩ := List.forall_mem_cons.mp hfinite
      obtain ⟨hcoordinates, hpoints⟩ := List.forall_mem_cons.mp hpoints
      exact ih (h.insert hp hcoordinates) hfinite hpoints

theorem MadeOf.of_mem_corners (h : box.MadeOf P) : ∀ q ∈ box.corners, ∀ x ∈ q.toList, P x := by
  intro q hq
  rw [corners] at hq
  split at hq
  next hvalid => exact h.resolve_left (ne_empty_of_isValid hvalid) q hq
  next => cases hq

end Box

namespace PointCloud

variable (options : AssemblyOptions) {segments : List MotionSegment}

/-- Where coordinates are rounded, those of the cloud and of its box are short. -/
theorem isShort_ofSegments {places n : Nat} (hplaces : options.places = some places)
    (hn : 3 * n * 10 ^ min places maxPlaces ≤ 10 ^ 14)
    (h : ∀ segment ∈ segments, segment.IsWithin n) :
    let cloud := ofSegments options segments
    ∀ p ∈ cloud.points.toList ++ cloud.bounds.corners, ∀ x ∈ p.toList, IsShort x := by
  intro cloud
  have hsmall : 3 * n < 2 ^ 53 :=
    Nat.lt_of_le_of_lt (Nat.le_trans (Nat.le_mul_of_pos_right _ (Decimal.ten_pow_pos _)) hn)
      (by decide)
  have hnormal {p : Point} (hp : p.IsWithin (3 * n)) :
      ∀ x ∈ (options.normalize p).toList, IsShort x := by
    rw [AssemblyOptions.normalize, hplaces]
    exact hp.isShort_rounded hn
  rw [List.forall_mem_append]
  constructor
  · intro p hp
    simp only [cloud, ofSegments, Assembler.points_pushAll, List.mem_append, List.mem_map] at hp
    rcases hp with hnone | ⟨q, hq, rfl⟩
    · cases hnone
    · obtain ⟨segment, hsegment, hpoint⟩ := List.mem_flatMap.mp (Assembler.mem_of_mem_fitting hq)
      exact hnormal ((h segment hsegment).of_mem_points hsmall hpoint)
  · have hcorner {taken : MotionSegment × Option Nat} (htaken : taken ∈ options.consumed segments)
        {q : Point} (hq : q ∈ taken.1.corners options.decode taken.2) : q.IsWithin (3 * n) :=
      (h taken.1 (mem_of_mem_consumed options segments htaken)).of_mem_corners hsmall hq
    have hempty : Box.empty.MadeOf IsShort := .inl rfl
    have hbox : cloud.bounds.MadeOf IsShort := by
      rw [bounds_ofSegments_eq]
      apply hempty.foldl_insert
      · rw [List.forall_mem_map]
        intro q hq
        obtain ⟨taken, htaken, hq⟩ := List.mem_flatMap.mp hq
        exact options.isFinite_normalize (hcorner htaken hq).isFinite
      · rw [List.forall_mem_map]
        intro q hq
        obtain ⟨taken, htaken, hq⟩ := List.mem_flatMap.mp hq
        exact hnormal (hcorner htaken hq)
    exact hbox.of_mem_corners

end PointCloud

end Toolpath
