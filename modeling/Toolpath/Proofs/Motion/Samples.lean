import Toolpath.Motion.Segment
import Toolpath.Proofs.Number.Overflow

/-! # The samples of a segment

A segment between finite positions has samples only if its length is finite, and
then none of its samples overflows: a length that is finite bounds every
coordinate of the move so far below the largest double that a part of it may be
added to any start.
-/

namespace Toolpath

open Binary64

namespace Point

variable {p q : Point}

theorem isFinite_iff :
    p.isFinite = true ↔ p.x.isFinite = true ∧ p.y.isFinite = true ∧ p.z.isFinite = true := by
  rw [isFinite, Bool.and_eq_true, Bool.and_eq_true, and_assoc]

/-- A point on the way along one coordinate, if the square of the way is finite. -/
theorem isFinite_along {x y t : Float} (hx : x.isFinite = true)
    (hsquare : ((y - x) * (y - x)).isFinite = true) (ht : t.isFinite = true)
    (hone : magnitude t ≤ onePattern) : (x + (y - x) * t).isFinite = true := by
  have hway : (y - x).isFinite = true := Number.isFinite_of_mul_self hsquare
  have hpart : magnitude ((y - x) * t) ≤ magnitude (y - x) := magnitude_mul_le hway ht hone
  have hlt : magnitude (y - x) < infinity := Binary64.isFinite_iff.mp hway
  apply isFinite_add rfl hx
  · exact Binary64.isFinite_iff.mpr (Nat.lt_of_le_of_lt hpart hlt)
  · exact Nat.lt_of_le_of_lt (units_le_units hpart hlt) (units_lt_of_mul_self rfl hway hsquare)

theorem isFinite_lerp {t : Float} (hp : p.isFinite = true)
    (hdistance : (p.distance q).isFinite = true) (ht : t.isFinite = true)
    (hone : magnitude t ≤ onePattern) : (p.lerp q t).isFinite = true := by
  obtain ⟨hx, hy, hz⟩ := isFinite_iff.mp hp
  obtain ⟨hxy, hsz⟩ := Number.isFinite_of_add (Number.isFinite_of_sqrt hdistance)
  obtain ⟨hsx, hsy⟩ := Number.isFinite_of_add hxy
  apply isFinite_iff.mpr
  exact ⟨isFinite_along hx hsx ht hone, isFinite_along hy hsy ht hone,
    isFinite_along hz hsz ht hone⟩

end Point

namespace SegmentPoints

theorem toList_samples (start stop : Point) (steps : Nat) :
    (samples start stop steps 0).toList = (List.range steps).map (sample start stop steps) := by
  simp [toList, take, length, List.range_eq_range']

/-- A sample lies at a fraction of the way that is at most one. -/
theorem magnitude_fraction_le {steps i : Nat} (hi : i < steps) (hsteps : steps < 2 ^ 64) :
    (i.toUInt64.toFloat / steps.toUInt64.toFloat).isFinite = true ∧
      magnitude (i.toUInt64.toFloat / steps.toUInt64.toFloat) ≤ onePattern := by
  have hcount (n : Nat) (h : n < 2 ^ 64) : n.toUInt64.toNat = n := UInt64.toNat_ofNat_of_lt' h
  apply magnitude_ratio_le
  · rw [hcount i (by omega), hcount steps hsteps]
    omega
  · rw [hcount steps hsteps]
    omega

theorem isFinite_sample {start stop : Point} {steps i : Nat} (hi : i < steps)
    (hsteps : steps < 2 ^ 64) (hstart : start.isFinite = true)
    (hdistance : (start.distance stop).isFinite = true) :
    (sample start stop steps i).isFinite = true := by
  obtain ⟨hratio, hone⟩ := magnitude_fraction_le hi hsteps
  exact Point.isFinite_lerp hstart hdistance hratio hone

end SegmentPoints

namespace MotionSegment

variable {segment : MotionSegment}

/-- There are samples only on a segment of finite length. -/
theorem isFinite_length_of_stepCount {step : Float} (h : segment.stepCount step ≠ 0) :
    segment.length.isFinite = true := by
  unfold stepCount at h
  split at h
  · exact absurd rfl h
  · dsimp only at h
    split at h
    · exact absurd rfl h
    next hratio =>
      apply Number.isFinite_of_div (y := step)
      simpa using hratio

theorem stepCount_lt (step : Float) : segment.stepCount step < 2 ^ 64 := by
  unfold stepCount
  split
  · decide
  · dsimp only
    split
    · decide
    · exact UInt64.toNat_lt _

/-- A point of a segment is its end, or a sample along it. -/
theorem eq_stop_or_exists_sample {options : DecodeOptions} {p : Point}
    (hp : p ∈ (segment.points options).toList) :
    p = segment.stop ∨ ∃ steps i, i < steps ∧ steps < 2 ^ 64 ∧ segment.length.isFinite = true ∧
      p = SegmentPoints.sample segment.start segment.stop steps i := by
  unfold points at hp
  cases hmode : options.mode with
  | vertex =>
      simp only [hmode] at hp
      exact .inl (List.mem_singleton.mp hp)
  | interpolated =>
      simp only [hmode] at hp
      cases hdeposit : segment.isDeposit with
      | false =>
          rw [hdeposit] at hp
          exact absurd hp List.not_mem_nil
      | true =>
          rw [hdeposit, if_pos rfl, densify, SegmentPoints.toList_samples] at hp
          obtain ⟨i, hi, rfl⟩ := List.mem_map.mp hp
          have hlt : i < segment.stepCount options.step := List.mem_range.mp hi
          have hsome : segment.stepCount options.step ≠ 0 := Nat.ne_zero_of_lt hlt
          exact .inr ⟨_, i, hlt, segment.stepCount_lt _, isFinite_length_of_stepCount hsome, rfl⟩

/-- A segment between finite positions contributes finite points, in either mode and for any
step. -/
theorem isFinite_of_mem_points {options : DecodeOptions} (hstart : segment.start.isFinite = true)
    (hstop : segment.stop.isFinite = true) {p : Point}
    (hp : p ∈ (segment.points options).toList) : p.isFinite = true := by
  rcases eq_stop_or_exists_sample hp with rfl | ⟨steps, i, hi, hsteps, hlength, rfl⟩
  · exact hstop
  · exact SegmentPoints.isFinite_sample hi hsteps hstart hlength

end MotionSegment

end Toolpath
