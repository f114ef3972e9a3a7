import Toolpath.Cloud.Export
import Toolpath.Proofs.Cloud.Rounded
import Toolpath.Proofs.Document.Fields
import Toolpath.Proofs.Json.RoundTrip

/-! # Point files that keep the box

A document holds the points of a cloud in their order, and its box, or null for
the empty one. Since the box of a cloud that is assembled from finite segments
is empty or valid, nothing is lost but what reading makes of the doubles: the
cloud comes back exactly if each of its coordinates does. Where coordinates are
rounded, that is so for all programs but those that go very far.
-/

namespace Toolpath

open Json

namespace Point

/-- What is read where a point was written. -/
theorem ofData?_reread (dialect : Dialect) (p : Point) :
    ofData? dialect (reread p.toData) = (do
      let x ← (reading p.x).float?
      let y ← (reading p.y).float?
      let z ← (reading p.z).float?
      some ⟨x, y, z⟩) := by
  have hfields : Fields.read? dialect ["x", "y", "z"] (reread p.toData) =
      some ⟨false, [("x", reading p.x), ("y", reading p.y), ("z", reading p.z)]⟩ :=
    Fields.read?_record (.refl _) (by decide)
  rw [ofData?, hfields]
  rfl

theorem ofData?_reread_eq_some_iff (dialect : Dialect) (p : Point) :
    ofData? dialect (reread p.toData) = some p ↔ ∀ x ∈ p.toList, ReadsBack x := by
  rw [ofData?_reread]
  simp only [toList, List.forall_mem_cons, ReadsBack]
  constructor
  · intro h
    obtain ⟨x, hx, h⟩ := Option.bind_eq_some_iff.mp h
    obtain ⟨y, hy, h⟩ := Option.bind_eq_some_iff.mp h
    obtain ⟨z, hz, h⟩ := Option.bind_eq_some_iff.mp h
    obtain rfl := Option.some.inj h
    exact ⟨hx, hy, hz, List.forall_mem_nil _⟩
  · rintro ⟨hx, hy, hz, -⟩
    rw [hx, hy, hz]
    rfl

end Point

namespace Box

theorem toData_eq_null_iff {box : Box} : box.toData = .null ↔ box.isValid = false := by
  rw [toData]
  split
  next h => simp [h]
  next h => simp [h]

theorem reread_toData_eq_null_iff {box : Box} :
    reread box.toData = .null ↔ box.isValid = false := by
  rw [← toData_eq_null_iff, toData]
  split
  · exact ⟨nofun, nofun⟩
  · exact iff_of_true rfl rfl

theorem Settled.eq_empty_iff {box : Box} (h : box.Settled) :
    box = empty ↔ box.isValid = false := by
  constructor
  · rintro rfl
    decide +kernel
  · intro hinvalid
    exact h.resolve_right (Bool.eq_false_iff.mp hinvalid)

theorem ofCorners?_reread (dialect : Dialect) {box : Box} (h : box.isValid = true) :
    ofCorners? dialect (reread box.toData) = (do
      let min ← Point.ofData? dialect (reread box.min.toData)
      let max ← Point.ofData? dialect (reread box.max.toData)
      some ⟨min, max⟩) := by
  have hfields : Fields.read? dialect ["min", "max"]
      (reread (.record [("min", box.min.toData), ("max", box.max.toData)])) =
        some ⟨false, [("min", reread box.min.toData), ("max", reread box.max.toData)]⟩ :=
    Fields.read?_record (.refl _) (by decide)
  rw [toData, if_pos h, ofCorners?, hfields]
  rfl

theorem ofCorners?_reread_eq_some_iff (dialect : Dialect) {box : Box} (h : box.isValid = true) :
    ofCorners? dialect (reread box.toData) = some box ↔
      ∀ p ∈ box.corners, ∀ x ∈ p.toList, ReadsBack x := by
  rw [ofCorners?_reread dialect h, corners, if_pos h, List.forall_mem_cons,
    List.forall_mem_singleton, ← Point.ofData?_reread_eq_some_iff dialect,
    ← Point.ofData?_reread_eq_some_iff dialect]
  constructor
  · intro h
    obtain ⟨min, hmin, h⟩ := Option.bind_eq_some_iff.mp h
    obtain ⟨max, hmax, h⟩ := Option.bind_eq_some_iff.mp h
    obtain rfl := Option.some.inj h
    exact ⟨hmin, hmax⟩
  · rintro ⟨hmin, hmax⟩
    rw [hmin, hmax]
    rfl

/-- A settled box is lost only if one of its doubles is: null stands for the empty one. -/
theorem ofData?_reread_eq_some_iff (dialect : Dialect) {box : Box} (h : box.Settled) :
    ofData? dialect (reread box.toData) = some box ↔
      ∀ p ∈ box.corners, ∀ x ∈ p.toList, ReadsBack x := by
  rw [ofData?]
  rcases h with rfl | hvalid
  · have hinvalid : empty.isValid = false := by decide +kernel
    have hcorners : empty.corners = [] := by rw [corners, hinvalid]; rfl
    rw [toData_eq_null_iff.mpr hinvalid, hcorners]
    simp only [List.not_mem_nil, false_implies, implies_true, iff_true]
    rfl
  · rw [← ofCorners?_reread_eq_some_iff dialect hvalid]
    have hsome : (reread box.toData).nullable? (ofCorners? dialect) =
        (ofCorners? dialect (reread box.toData)).map some := by
      rw [toData, if_pos hvalid]
      rfl
    rw [hsome, Option.map_map]
    exact iff_of_eq (congrArg (· = some box) (Option.map_id' (x := ofCorners? dialect _)))

end Box

namespace PointCloud

theorem ofData?_reread (dialect : Dialect) (cloud : PointCloud) :
    ofData? dialect (reread cloud.toData) = (do
      let points ← (Data.list (cloud.points.toList.map fun p => reread p.toData)).list?
        (Point.ofData? dialect)
      let bounds ← Box.ofData? dialect (reread cloud.bounds.toData)
      some ⟨points.toArray, bounds⟩) := by
  have hpoints : rereadItems (cloud.points.toList.map Point.toData) =
      cloud.points.toList.map fun p => reread p.toData := by
    rw [rereadItems_eq_map, List.map_map]
    rfl
  have hfields : Fields.read? dialect ["points", "bounds"] (reread cloud.toData) =
      some ⟨false, [("points", .list (cloud.points.toList.map fun p => reread p.toData)),
        ("bounds", reread cloud.bounds.toData)]⟩ := by
    rw [← hpoints]
    exact Fields.read?_record (.refl _) (by decide)
  rw [ofData?, hfields]
  simp only [Box.ofData?, Option.bind_eq_bind, Option.bind_map]
  rfl

/-- A cloud with a settled box is lost only if one of its doubles is. -/
theorem ofData?_reread_eq_some_iff (dialect : Dialect) {cloud : PointCloud}
    (h : cloud.bounds.Settled) :
    ofData? dialect (reread cloud.toData) = some cloud ↔
      ∀ p ∈ cloud.points.toList ++ cloud.bounds.corners, ∀ x ∈ p.toList, ReadsBack x := by
  rw [List.forall_mem_append, ← Box.ofData?_reread_eq_some_iff dialect h, ofData?_reread]
  simp only [← Point.ofData?_reread_eq_some_iff dialect]
  rw [← Data.list?_map_eq_some_iff]
  constructor
  · intro h
    obtain ⟨points, hpoints, h⟩ := Option.bind_eq_some_iff.mp h
    obtain ⟨bounds, hbounds, h⟩ := Option.bind_eq_some_iff.mp h
    obtain rfl := Option.some.inj h
    exact ⟨hpoints, hbounds⟩
  · rintro ⟨hpoints, hbounds⟩
    rw [hpoints, hbounds]
    rfl

/-- A point file in the document format is the document with a line feed behind it. -/
theorem read?_render_document (cloud : PointCloud) (delimiter : String) :
    Json.read? (cloud.render .json delimiter) = some (reread cloud.toData) := by
  have htext : cloud.render .json delimiter = print prettyLayout 0 cloud.toData ++ ['\n'] := by
    simp [render, pieces, pretty]
  rw [htext]
  apply read?_print isBlank_prettyLayout
  intro c hc
  obtain rfl := List.mem_singleton.mp hc
  rfl

variable (options : AssemblyOptions) {segments : List MotionSegment}

/-- Whatever finite segments a cloud is assembled from, its document is read as a record of as many
points, with null for the box if no deposit was taken in and only then, and null is read as the box
of that cloud. The cloud comes back as it was exactly if each of its doubles does, and so it does
where coordinates are rounded to places and three times the ends of the segments are numbers of at
most fourteen digits with as many places. -/
theorem render_json_lossless_iff (h : ∀ segment ∈ segments, segment.IsFinite) (delimiter : String) :
    let cloud := ofSegments options segments
    let document := Json.read? (cloud.render .json delimiter)
    (document.bind (ofData? dialect) = some cloud ↔
      ∀ p ∈ cloud.points.toList ++ cloud.bounds.corners, ∀ x ∈ p.toList, ReadsBack x) ∧
    (∀ places n, options.places = some places → 3 * n * 10 ^ min places Number.maxPlaces ≤ 10 ^ 14 →
      (∀ segment ∈ segments, segment.IsWithin n) →
        document.bind (ofData? dialect) = some cloud) ∧
    (∀ p ∈ cloud.points.toList ++ cloud.bounds.corners, p.isFinite = true) ∧
    ∃ points bounds, document = some (.record [("points", .list points), ("bounds", bounds)]) ∧
      points.length = cloud.size ∧
      (bounds = .null ↔
        ∀ segment room, (segment, room) ∈ options.consumed segments → segment.isDeposit = false) ∧
      (bounds = .null → cloud.bounds = Box.empty ∧
        Box.ofData? dialect bounds = some cloud.bounds) := by
  intro cloud document
  have hsound := sound_ofSegments options h
  have hsettled : cloud.bounds.Settled := hsound.bounds
  have hdocument : document = some (reread cloud.toData) := cloud.read?_render_document delimiter
  have hempty : cloud.bounds = Box.empty ↔
      ∀ segment room, (segment, room) ∈ options.consumed segments → segment.isDeposit = false :=
    bounds_ofSegments_eq_empty_iff options _ fun segment hmem => (h segment hmem).1
  have hnull : reread cloud.bounds.toData = .null ↔ cloud.bounds = Box.empty :=
    Box.reread_toData_eq_null_iff.trans hsettled.eq_empty_iff.symm
  have hback : document.bind (ofData? dialect) = some cloud ↔
      ∀ p ∈ cloud.points.toList ++ cloud.bounds.corners, ∀ x ∈ p.toList, ReadsBack x := by
    rw [hdocument]
    exact ofData?_reread_eq_some_iff dialect hsettled
  refine ⟨hback, ?_, ?_, _, reread cloud.bounds.toData, hdocument, ?_, hnull.trans hempty, ?_⟩
  · intro places n hplaces hn hwithin
    have hshort := isShort_ofSegments options hplaces hn hwithin
    exact hback.mpr fun p hp x hx => (hshort p hp x hx).readsBack
  · intro p hp
    rcases List.mem_append.mp hp with hp | hp
    · exact hsound.points p hp
    · rw [Box.corners] at hp
      split at hp
      next hvalid =>
        obtain ⟨hmin, hmax, -⟩ := Box.isValid_iff.mp hvalid
        rcases List.mem_pair.mp hp with rfl | rfl
        · exact hmin
        · exact hmax
      next => cases hp
  · rw [rereadItems_eq_map, List.length_map, List.length_map]
    rfl
  · intro hbounds
    have hbox := hnull.mp hbounds
    refine ⟨hbox, ?_⟩
    rw [hbounds, hbox]
    rfl

/-- A box that is flat on one axis, and a point that was only passed, come back. -/
theorem render_json_lossless_of_short :
    let cloud := ofSegments { decode := { mode := .vertex }, places := none }
      [{ start := .origin, stop := ⟨0.1, 0.2, 0.0⟩, isDeposit := false },
        { start := ⟨0.1, 0.2, 0.0⟩, stop := ⟨1.5, 0.2, -0.3⟩, isDeposit := true }]
    cloud.size = 2 ∧
      (Json.read? (cloud.render .json ",")).bind (ofData? dialect) = some cloud := by
  intro cloud
  have hsize : cloud.size = 2 := by decide +kernel
  have hfinite : Point.isFinite .origin = true ∧ Point.isFinite ⟨0.1, 0.2, 0.0⟩ = true ∧
      Point.isFinite ⟨1.5, 0.2, -0.3⟩ = true := by
    decide +kernel
  have hshort : ∀ p ∈ cloud.points.toList ++ cloud.bounds.corners, ∀ x ∈ p.toList, IsShort x := by
    decide +kernel
  refine ⟨hsize, (render_json_lossless_iff { decode := { mode := .vertex }, places := none } ?_
    ",").1.mpr fun p hp x hx => (hshort p hp x hx).readsBack⟩
  intro segment hmem
  rcases List.mem_pair.mp hmem with rfl | rfl
  · exact ⟨hfinite.1, hfinite.2.1⟩
  · exact ⟨hfinite.2.1, hfinite.2.2⟩

/-- A double of seventeen digits is read as its neighbour, and with it the cloud. -/
theorem render_json_loses_double :
    let cloud := (ofStream { decode := { mode := .vertex }, places := none }
      { lines := ["G1 X414.90671162274515 E1"] }).1
    cloud.hasDeposits = true ∧
      (Json.read? (cloud.render .json ",")).bind (ofData? dialect) ≠ some cloud := by
  intro cloud
  have hvalid : cloud.bounds.isValid = true := by decide +kernel
  refine ⟨hvalid, ?_⟩
  rw [read?_render_document, Option.bind_some, Ne,
    ofData?_reread_eq_some_iff dialect (.inr hvalid)]
  decide +kernel

end PointCloud

end Toolpath
